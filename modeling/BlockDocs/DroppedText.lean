import BlockDocs.PastedText

/-!
# Where text is dropped

Whether all texts come through depends on the tokens alone and not on the texts, unless
a dropped text happens to occur elsewhere. So a condition on the tokens is compared with
what happens under all texts that they can have.
-/

set_option autoImplicit false

namespace BlockDocs.DroppedText
open BlockDocs.InsertionMap BlockDocs.Wire BlockDocs.DocBlocks BlockDocs.InlineNodes
open BlockDocs.Markdown BlockDocs.PastedBlocks BlockDocs.KeptInOrder BlockDocs.PastedText

/-! ## Shapes -/

mutual

def shape : Token → Token
  | .heading depth _ => .heading depth []
  | .paragraph _ => .paragraph []
  | .code lang _ => .code lang ""
  | .blockquote tokens => .blockquote (shapeAll tokens)
  | .hr => .hr
  | .list ordered items => .list ordered (itemShapes items)
  | .html => .html
  | .space => .space
  | .table header rows => .table (header.map (fun _ => "")) (rows.map (List.map (fun _ => "")))
  | .text _ _ => .text "" []
  | .other _ => .other ""

def shapeAll : List Token → List Token
  | [] => []
  | tok::tokens => shape tok::shapeAll tokens

def itemShapes : List ListItem → List ListItem
  | [] => []
  | .mk task checked tokens::items => .mk task checked (shapeAll tokens)::itemShapes items

end

mutual

def fill (s : String) : Token → Token
  | .heading depth _ => .heading depth [.text s []]
  | .paragraph _ => .paragraph [.text s []]
  | .code lang _ => .code lang s
  | .blockquote tokens => .blockquote (fillAll s tokens)
  | .hr => .hr
  | .list ordered items => .list ordered (fillItems s items)
  | .html => .html
  | .space => .space
  | .table header rows => .table (header.map (fun _ => s)) (rows.map (List.map (fun _ => s)))
  | .text _ _ => .text s [.text s []]
  | .other _ => .other s

def fillAll (s : String) : List Token → List Token
  | [] => []
  | tok::tokens => fill s tok::fillAll s tokens

def fillItems (s : String) : List ListItem → List ListItem
  | [] => []
  | .mk task checked tokens::items => .mk task checked (fillAll s tokens)::fillItems s items

end

mutual

theorem shape_fill (s : String) (tok : Token) : shape (fill s tok) = shape tok := by
  cases tok with
  | blockquote tokens => rw [fill,shape,shape,shapeAll_fill s tokens]
  | list ordered items => rw [fill,shape,shape,itemShapes_fill s items]
  | table header rows =>
    rw [fill,shape,shape,List.map_map,List.map_map]
    congr 1
    refine List.map_congr_left fun cells _ => ?_
    rw [Function.comp_apply,List.map_map]
    rfl
  | _ => rfl

theorem shapeAll_fill (s : String) (tokens : List Token) :
    shapeAll (fillAll s tokens) = shapeAll tokens := by
  cases tokens with
  | nil => rfl
  | cons tok tokens => rw [fillAll,shapeAll,shapeAll,shape_fill s tok,shapeAll_fill s tokens]

theorem itemShapes_fill (s : String) (items : List ListItem) :
    itemShapes (fillItems s items) = itemShapes items := by
  cases items with
  | nil => rfl
  | cons item items =>
    cases item with
    | mk task checked tokens =>
      rw [fillItems,itemShapes,itemShapes,shapeAll_fill s tokens,itemShapes_fill s items]

end

theorem shapeAll_eq (tokens : List Token) : shapeAll tokens = tokens.map shape := by
  induction tokens with
  | nil => rfl
  | cons tok tokens ih => rw [shapeAll,ih,List.map_cons]

mutual

/-- How many texts there are is a matter of the shape. -/
theorem texts_shape (inItem : Bool) (tok : Token) :
    (texts inItem (shape tok)).length = (texts inItem tok).length := by
  cases tok with
  | blockquote tokens => exact textsAll_shape false tokens
  | list ordered items => exact itemTexts_shape items
  | table header rows =>
    rw [shape,texts,texts,List.length_map,List.length_map,List.length_flatten,
      List.length_flatten,← List.map_cons (f := List.map (fun _ => "")),List.map_map]
    congr 1
    exact List.map_congr_left (fun cells _ => List.length_map _)
  | text raw tokens => cases inItem <;> rfl
  | other raw => cases inItem <;> rfl
  | _ => rfl

theorem textsAll_shape (inItem : Bool) (tokens : List Token) :
    (textsAll inItem (shapeAll tokens)).length = (textsAll inItem tokens).length := by
  cases tokens with
  | nil => rfl
  | cons tok tokens =>
    rw [shapeAll,textsAll,textsAll,List.length_append,List.length_append,
      texts_shape inItem tok,textsAll_shape inItem tokens]

theorem itemTexts_shape (items : List ListItem) :
    (itemTexts (itemShapes items)).length = (itemTexts items).length := by
  cases items with
  | nil => rfl
  | cons item items =>
    cases item with
    | mk task checked tokens =>
      rw [itemShapes,itemTexts,itemTexts,List.length_append,List.length_append,
        textsAll_shape true tokens,itemTexts_shape items]

end

theorem voiced_shape (tok : Token) : voiced (shape tok) = voiced tok := by
  have hlength := texts_shape true tok
  rw [voiced,voiced]
  cases htok : texts true tok with
  | nil =>
    rw [htok] at hlength
    rw [List.eq_nil_of_length_eq_zero hlength]
  | cons t ts =>
    rw [htok] at hlength
    rw [List.isEmpty_eq_false_iff.mpr (List.ne_nil_of_length_eq_add_one hlength)]
    rfl

theorem isList_shape (tok : Token) : (shape tok).isList = tok.isList := by cases tok <;> rfl

theorem inline_shape (tok : Token) :
    (inlineTokens (shape tok)).isSome = (inlineTokens tok).isSome := by cases tok <;> rfl

theorem arranged_shape (tokens : List Token) : Arranged (shapeAll tokens) ↔ Arranged tokens := by
  have hfilter : (shapeAll tokens).filter voiced = (tokens.filter voiced).map shape := by
    rw [shapeAll_eq,List.filter_map]
    congr 1
    exact List.filter_congr (fun tok _ => voiced_shape tok)
  rw [Arranged,Arranged,hfilter]
  cases tokens.filter voiced with
  | nil => exact Iff.rfl
  | cons first rest => simp [isList_shape,inline_shape]

mutual

theorem orderly_shape (tok : Token) : Orderly (shape tok) ↔ Orderly tok := by
  cases tok with
  | blockquote tokens => exact orderlyAll_shape tokens
  | list ordered items => exact orderlyItems_shape items
  | _ => exact Iff.rfl

theorem orderlyAll_shape (tokens : List Token) :
    OrderlyAll (shapeAll tokens) ↔ OrderlyAll tokens := by
  cases tokens with
  | nil => exact Iff.rfl
  | cons tok tokens => exact and_congr (orderly_shape tok) (orderlyAll_shape tokens)

theorem orderlyItems_shape (items : List ListItem) :
    OrderlyItems (itemShapes items) ↔ OrderlyItems items := by
  cases items with
  | nil => exact Iff.rfl
  | cons item items =>
    cases item with
    | mk task checked tokens =>
      exact and_congr (and_congr (arranged_shape tokens) (orderlyLists_shape tokens))
        (orderlyItems_shape items)

theorem orderlyLists_shape (tokens : List Token) :
    OrderlyLists (shapeAll tokens) ↔ OrderlyLists tokens := by
  cases tokens with
  | nil => exact Iff.rfl
  | cons sub tokens =>
    rw [shapeAll,OrderlyLists,OrderlyLists,isList_shape,orderly_shape sub,
      orderlyLists_shape tokens]

end

/-! ## Filled tokens -/

theorem isList_fill (s : String) (tok : Token) : (fill s tok).isList = tok.isList := by
  rw [← isList_shape,shape_fill,isList_shape]

theorem voiced_fill (s : String) (tok : Token) : voiced (fill s tok) = voiced tok := by
  rw [← voiced_shape,shape_fill,voiced_shape]

theorem filled_cells (s : String) (header : List String) (rows : List (List String)) :
    ∀ cells ∈ header.map (fun _ => s)::rows.map (List.map (fun _ => s)), ∀ cell ∈ cells,
      cell = s := by
  intro cells hcells cell hcell
  rw [← List.map_cons (f := List.map (fun _ => s))] at hcells
  obtain ⟨_,_,rfl⟩ := List.mem_map.mp hcells
  obtain ⟨_,_,rfl⟩ := List.mem_map.mp hcell
  rfl

theorem inlines_fill (s : String) : inlinesText [.text s []] = s.toList := List.append_nil _

theorem inline_fill {s : String} {tok : Token} {inline : List Inline}
    (h : inlineTokens (fill s tok) = some inline) : inlinesText inline = s.toList := by
  cases tok with
  | paragraph tokens =>
    cases h
    exact inlines_fill s
  | text raw tokens =>
    cases h
    exact inlines_fill s
  | _ => cases h

mutual

theorem texts_fill (s : String) (inItem : Bool) (tok : Token) :
    ∀ t ∈ texts inItem (fill s tok), t = s.toList := by
  cases tok with
  | heading depth tokens => exact List.forall_mem_singleton.mpr (inlines_fill s)
  | paragraph tokens => exact List.forall_mem_singleton.mpr (inlines_fill s)
  | code lang text => exact List.forall_mem_singleton.mpr rfl
  | blockquote tokens => exact textsAll_fill s false tokens
  | list ordered items => exact itemTexts_fill s items
  | table header rows =>
    rw [fill,texts]
    intro t ht
    obtain ⟨cell,hcell,rfl⟩ := List.mem_map.mp ht
    obtain ⟨cells,hcells,hcell⟩ := List.mem_flatten.mp hcell
    rw [filled_cells s header rows cells hcells cell hcell]
  | text raw tokens =>
    cases inItem with
    | false => exact nofun
    | true => exact List.forall_mem_singleton.mpr (inlines_fill s)
  | other raw =>
    cases inItem with
    | false => exact nofun
    | true => exact List.forall_mem_singleton.mpr rfl
  | hr => exact nofun
  | html => exact nofun
  | space => exact nofun

theorem textsAll_fill (s : String) (inItem : Bool) (tokens : List Token) :
    ∀ t ∈ textsAll inItem (fillAll s tokens), t = s.toList := by
  cases tokens with
  | nil => exact nofun
  | cons tok tokens =>
    rw [fillAll,textsAll]
    exact List.forall_mem_append.mpr ⟨texts_fill s inItem tok,textsAll_fill s inItem tokens⟩

theorem itemTexts_fill (s : String) (items : List ListItem) :
    ∀ t ∈ itemTexts (fillItems s items), t = s.toList := by
  cases items with
  | nil => exact nofun
  | cons item items =>
    cases item with
    | mk task checked tokens =>
      rw [fillItems,itemTexts]
      exact List.forall_mem_append.mpr ⟨textsAll_fill s true tokens,itemTexts_fill s items⟩

end

theorem fill_speaks {s : String} {tok : Token} (h : voiced tok = true) :
    s.toList ∈ texts true (fill s tok) := by
  have hvoiced : voiced (fill s tok) = true := (voiced_fill s tok).trans h
  rw [voiced] at hvoiced
  cases htexts : texts true (fill s tok) with
  | nil =>
    rw [htexts] at hvoiced
    cases hvoiced
  | cons t ts =>
    have ht := texts_fill s true tok t (by rw [htexts]; exact List.mem_cons_self)
    rw [← ht]
    exact List.mem_cons_self

/-! ## What filled tokens put out -/

def Plain (s : String) (text : List Char) : Prop := ∀ ch ∈ text, ch ∈ s.toList ∨ ch = ' ' ∨ ch = '|'

theorem plain_self (s : String) : Plain s s.toList := fun _ hch => Or.inl hch

theorem plain_line (s : String) {cells : List String} (h : ∀ cell ∈ cells, cell = s) :
    Plain s (cellLine cells).toList := by
  induction cells with
  | nil => exact nofun
  | cons first cells ih =>
    obtain ⟨rfl,hrest⟩ := List.forall_mem_cons.mp h
    cases cells with
    | nil =>
      rw [cellLine,String.intercalate_singleton]
      exact plain_self first
    | cons second cells =>
      rw [cellLine,String.intercalate_cons_cons,String.toList_append,String.toList_append]
      have hseparator : Plain first " | ".toList := by
        intro ch hch
        have hone : ch = ' ' ∨ ch = '|' ∨ ch = ' ' := by simpa using hch
        exact Or.inr (by tauto)
      exact List.forall_mem_append.mpr
        ⟨List.forall_mem_append.mpr ⟨plain_self first,hseparator⟩,ih hrest⟩

section Contents

variable {stringify : Json → String}

theorem plain_leaf {s : String} {draft : Draft} (h : Plain s (contentText draft.content)) :
    ∀ c ∈ contentsAll [.node draft []], Plain s c := List.forall_mem_singleton.mpr h

theorem plain_inline (s : String) {text : List Char} (h : text = s.toList) : Plain s text := by
  rw [h]
  exact plain_self s

theorem filled_inline (s : String) :
    (inlineFromTokens stringify [.text s []] []).flatMap nodeText = s.toList := by
  rw [inline_text,inlines_fill]

theorem plain_raw (s : String) : ∀ c ∈ contentsAll
    (if s = "" then [] else [.node ⟨"paragraph",plainContent s⟩ []]), Plain s c := by
  split
  · exact nofun
  · exact plain_leaf (plain_inline s (List.append_nil _))

theorem plain_lines (s : String) {lines : List (List String)}
    (h : ∀ cells ∈ lines, ∀ cell ∈ cells, cell = s) : ∀ c ∈ contentsAll (lines.map (fun cells =>
      .node ⟨"paragraph",plainContent (cellLine cells)⟩ [])), Plain s c := by
  induction lines with
  | nil => exact nofun
  | cons cells lines ih =>
    obtain ⟨hfirst,hrest⟩ := List.forall_mem_cons.mp h
    rw [List.map_cons,contentsAll,contents,line_text]
    exact List.forall_mem_cons.mpr ⟨plain_line s hfirst,ih hrest⟩

/-- A piece of an item's text is that of one of its tokens. -/
theorem itemInline_from (tokens : List Token) :
    itemInline tokens = [] ∨ ∃ tok ∈ tokens, inlineTokens tok = some (itemInline tokens) := by
  rw [itemInline]
  cases hparagraph : tokens.findSome? paragraphTokens with
  | some inline =>
    obtain ⟨tok,htok,hsome⟩ := List.exists_of_findSome?_eq_some hparagraph
    exact Or.inr ⟨tok,htok,by rw [inlineTokens,hsome]; rfl⟩
  | none =>
    cases htext : tokens.findSome? textTokens with
    | none => exact Or.inl rfl
    | some inline =>
      obtain ⟨tok,htok,hsome⟩ := List.exists_of_findSome?_eq_some htext
      have hnone := List.findSome?_eq_none_iff.mp hparagraph tok htok
      exact Or.inr ⟨tok,htok,by rw [inlineTokens,hsome,hnone]; rfl⟩

theorem listOutlines_from {tokens : List Token} {c : List Char}
    (h : c ∈ contentsAll (listOutlines stringify tokens)) :
    ∃ sub ∈ tokens, sub.isList = true ∧ c ∈ contentsAll (outlines stringify sub) := by
  induction tokens with
  | nil => cases h
  | cons sub tokens ih =>
    rw [listOutlines,contentsAll_append] at h
    rcases List.mem_append.mp h with h | h
    · by_cases hlist : sub.isList = true
      · rw [if_pos hlist] at h
        exact ⟨sub,List.mem_cons_self,hlist,h⟩
      · rw [if_neg hlist] at h
        cases h
    · obtain ⟨sub',hsub',hrest⟩ := ih h
      exact ⟨sub',List.mem_cons_of_mem _ hsub',hrest⟩

theorem itemText_from {tokens : List Token} (P : List Char → Prop) (hnil : P [])
    (h : ∀ tok ∈ tokens, ∀ inline, inlineTokens tok = some inline → P (inlinesText inline)) :
    P (inlinesText (itemInline tokens)) := by
  rcases itemInline_from tokens with heq | ⟨tok,htok,hsome⟩
  · rw [heq]
    exact hnil
  · exact h tok htok _ hsome

theorem fillAll_eq (s : String) (tokens : List Token) : fillAll s tokens = tokens.map (fill s) := by
  induction tokens with
  | nil => rfl
  | cons tok tokens ih => rw [fillAll,ih,List.map_cons]

theorem itemText_fill (s : String) (tokens : List Token) :
    Plain s (inlinesText (itemInline (fillAll s tokens))) := by
  refine itemText_from (Plain s) nofun fun tok' htok' inline hinline => ?_
  rw [fillAll_eq] at htok'
  obtain ⟨tok,_,rfl⟩ := List.mem_map.mp htok'
  exact plain_inline s (inline_fill hinline)

mutual

theorem contents_fill (s : String) (tok : Token) :
    ∀ c ∈ contentsAll (outlines stringify (fill s tok)), Plain s c := by
  cases tok with
  | heading depth tokens => exact plain_leaf (plain_inline s (filled_inline s))
  | paragraph tokens => exact plain_leaf (plain_inline s (filled_inline s))
  | code lang text => exact plain_leaf (plain_inline s (List.append_nil _))
  | blockquote tokens =>
    rw [fill,outlines,contentsAll_single,contents]
    exact List.forall_mem_cons.mpr ⟨nofun,contentsAll_fill s tokens⟩
  | hr => exact plain_leaf nofun
  | list ordered items => exact contentsItems_fill s ordered items
  | html => exact nofun
  | space => exact nofun
  | table header rows =>
    rw [fill,outlines]
    exact plain_lines s (filled_cells s header rows)
  | text raw tokens => exact plain_raw s
  | other raw => exact plain_raw s

theorem contentsAll_fill (s : String) (tokens : List Token) :
    ∀ c ∈ contentsAll (outlinesAll stringify (fillAll s tokens)), Plain s c := by
  cases tokens with
  | nil => exact nofun
  | cons tok tokens =>
    rw [fillAll,outlinesAll,contentsAll_append]
    exact List.forall_mem_append.mpr ⟨contents_fill s tok,contentsAll_fill s tokens⟩

theorem contentsItems_fill (s : String) (ordered : Bool) (items : List ListItem) :
    ∀ c ∈ contentsAll (itemOutlines stringify ordered (fillItems s items)), Plain s c := by
  cases items with
  | nil => exact nofun
  | cons item items =>
    cases item with
    | mk task checked tokens =>
      rw [fillItems,itemOutlines,itemOutline,contentsAll,contents,itemContent,contentText]
      refine List.forall_mem_append.mpr ⟨List.forall_mem_cons.mpr ⟨?_,?_⟩,
        contentsItems_fill s ordered items⟩
      · exact (inline_text stringify (itemInline (fillAll s tokens)) []) ▸ itemText_fill s tokens
      · exact contentsLists_fill s tokens

theorem contentsLists_fill (s : String) (tokens : List Token) :
    ∀ c ∈ contentsAll (listOutlines stringify (fillAll s tokens)), Plain s c := by
  cases tokens with
  | nil => exact nofun
  | cons sub tokens =>
    rw [fillAll,listOutlines,contentsAll_append]
    refine List.forall_mem_append.mpr ⟨?_,contentsLists_fill s tokens⟩
    split
    · exact contents_fill s sub
    · exact nofun

end

end Contents

/-! ## Dropped texts -/

def lettered (text : List Char) : Bool := decide ('x' ∈ text ∨ 'y' ∈ text)

def Broken (ts cs : List (List Char)) : Prop :=
  ¬Kept (· <:+: ·) (ts.filter lettered) (cs.filter lettered)

theorem Broken.not_kept {ts cs : List (List Char)} (h : Broken ts cs) : ¬Kept (· <:+: ·) ts cs := by
  intro hkept
  refine h (kept_filter (fun t c htc ht => ?_) hkept)
  rw [lettered,decide_eq_true_eq] at ht ⊢
  exact ht.imp (fun hx => htc.subset hx) (fun hy => htc.subset hy)

theorem lettered_none {texts : List (List Char)} (h : ∀ t ∈ texts, Plain "" t) :
    texts.filter lettered = [] := by
  rw [List.filter_eq_nil_iff]
  intro t ht hletter
  rw [lettered,decide_eq_true_eq] at hletter
  rcases hletter with hx | hy
  · exact absurd (h t ht 'x' hx) (by decide)
  · exact absurd (h t ht 'y' hy) (by decide)

theorem Broken.behind {ts ts₁ cs cs₁ : List (List Char)} (h : Broken ts cs)
    (ht : ∀ t ∈ ts₁, Plain "" t) (hc : ∀ c ∈ cs₁, Plain "" c) : Broken (ts₁++ts) (cs₁++cs) := by
  rw [Broken,List.filter_append,List.filter_append,lettered_none ht,lettered_none hc]
  exact h

theorem Broken.before {ts ts₁ cs cs₁ : List (List Char)} (h : Broken ts cs)
    (ht : ∀ t ∈ ts₁, Plain "" t) (hc : ∀ c ∈ cs₁, Plain "" c) : Broken (ts++ts₁) (cs++cs₁) := by
  rw [Broken,List.filter_append,List.filter_append,lettered_none ht,lettered_none hc,
    List.append_nil,List.append_nil]
  exact h

theorem Broken.under {ts cs : List (List Char)} {c : List Char} (h : Broken ts cs)
    (hc : Plain "" c) : Broken ts (c::cs) :=
  @Broken.behind ts [] cs [c] h nofun (List.forall_mem_singleton.mpr hc)

theorem plain_texts (inItem : Bool) (tok : Token) : ∀ t ∈ texts inItem (fill "" tok), Plain "" t :=
  fun t ht => plain_inline "" (texts_fill "" inItem tok t ht)

theorem plain_textsAll (inItem : Bool) (tokens : List Token) :
    ∀ t ∈ textsAll inItem (fillAll "" tokens), Plain "" t :=
  fun t ht => plain_inline "" (textsAll_fill "" inItem tokens t ht)

theorem plain_itemTexts (items : List ListItem) :
    ∀ t ∈ itemTexts (fillItems "" items), Plain "" t :=
  fun t ht => plain_inline "" (itemTexts_fill "" items t ht)

/-! ### In a list item -/

def labelled (labels : List (String × Token)) : List Token :=
  labels.map (fun l => fill l.1 l.2)

section Item

variable {stringify : Json → String} {labels : List (String × Token)}

theorem shape_labelled (labels : List (String × Token)) :
    shapeAll (labelled labels) = shapeAll (labels.map Prod.snd) := by
  rw [shapeAll_eq,shapeAll_eq,labelled,List.map_map,List.map_map]
  exact List.map_congr_left (fun l _ => shape_fill l.1 l.2)

theorem labelled_speaks (s : String) (tok : Token) (hv : voiced tok = true)
    (hmem : (s,tok) ∈ labels) : s.toList ∈ textsAll true (labelled labels) := by
  induction labels with
  | nil => cases hmem
  | cons l labels ih =>
    rw [labelled,List.map_cons,textsAll]
    rcases List.mem_cons.mp hmem with rfl | hmem
    · exact List.mem_append_left _ (fill_speaks hv)
    · exact List.mem_append_right _ (ih hmem)

theorem labelled_append (labels labels' : List (String × Token)) :
    labelled (labels++labels') = labelled labels++labelled labels' := List.map_append

theorem textsAll_append (inItem : Bool) (tokens tokens' : List Token) :
    textsAll inItem (tokens++tokens') = textsAll inItem tokens++textsAll inItem tokens' := by
  induction tokens with
  | nil => rfl
  | cons tok tokens ih => rw [List.cons_append,textsAll,ih,textsAll,List.append_assoc]

/-- A character that no list is filled with does not get into the templates of the nested lists. -/
theorem lists_without {ch : Char} (hch : ch ≠ ' ' ∧ ch ≠ '|')
    (h : ∀ l ∈ labels, ch ∈ l.1.toList → l.2.isList = false) :
    ∀ c ∈ contentsAll (listOutlines stringify (labelled labels)), ch ∉ c := by
  intro c hc hmem
  obtain ⟨sub,hsub,hlist,hsub'⟩ := listOutlines_from hc
  obtain ⟨⟨s,tok⟩,hl,rfl⟩ := List.mem_map.mp hsub
  rw [isList_fill] at hlist
  rcases contents_fill s tok c hsub' ch hmem with hs | hspace | hbar
  · exact Bool.false_ne_true ((h _ hl hs).symm.trans hlist)
  · exact hch.1 hspace
  · exact hch.2 hbar

theorem itemText_labelled (labels : List (String × Token)) :
    inlinesText (itemInline (labelled labels)) = [] ∨
      ∃ l ∈ labels, (inlineTokens l.2).isSome = true ∧
        inlinesText (itemInline (labelled labels)) = l.1.toList := by
  refine itemText_from (fun text => text = [] ∨ ∃ l ∈ labels,
    (inlineTokens l.2).isSome = true ∧ text = l.1.toList) (Or.inl rfl) ?_
  intro tok' htok' inline hinline
  refine Or.inr ?_
  obtain ⟨⟨s,tok⟩,hl,rfl⟩ := List.mem_map.mp htok'
  refine ⟨(s,tok),hl,?_,inline_fill hinline⟩
  rw [← inline_shape,← shape_fill s tok,inline_shape,hinline]
  rfl

def itemContents (stringify : Json → String) (tokens : List Token) : List (List Char) :=
  inlinesText (itemInline tokens)::contentsAll (listOutlines stringify tokens)

theorem itemOutlines_contents (ordered task checked : Bool) (tokens : List Token)
    (items : List ListItem) :
    contentsAll (itemOutlines stringify ordered (.mk task checked tokens::items)) =
      itemContents stringify tokens++contentsAll (itemOutlines stringify ordered items) := by
  have htext : contentText (itemContent stringify task checked tokens) =
      inlinesText (itemInline tokens) := inline_text stringify _ _
  rw [itemOutlines,itemOutline,contentsAll,contents,htext]
  rfl

theorem plain_item (tokens : List Token) :
    ∀ c ∈ itemContents stringify (fillAll "" tokens), Plain "" c :=
  List.forall_mem_cons.mpr ⟨itemText_fill "" tokens,contentsLists_fill "" tokens⟩

theorem unarranged {tokens : List Token} (h : ¬Arranged tokens) :
    (∃ before tok behind, tokens = before++tok::behind ∧ voiced tok = true ∧
      tok.isList = false ∧ (inlineTokens tok).isSome = false) ∨
    ∃ before first between tok behind, tokens = before++first::(between++tok::behind) ∧
      voiced first = true ∧ voiced tok = true ∧ tok.isList = false := by
  rw [Arranged] at h
  cases hfilter : tokens.filter voiced with
  | nil =>
    rw [hfilter] at h
    exact absurd trivial h
  | cons first rest =>
    rw [hfilter] at h
    obtain ⟨before,later,rfl,_,hfirst,hrest⟩ := List.filter_eq_cons_iff.mp hfilter
    rcases not_and_or.mp h with h | h
    · obtain ⟨hlist,hinline⟩ := not_or.mp h
      exact Or.inl ⟨before,first,later,rfl,hfirst,(Bool.not_eq_true _).mp hlist,
        (Bool.not_eq_true _).mp hinline⟩
    · push Not at h
      obtain ⟨tok,htok,hlist⟩ := h
      obtain ⟨hlater,hv⟩ := List.mem_filter.mp (hrest ▸ htok)
      obtain ⟨between,behind,rfl⟩ := List.append_of_mem hlater
      exact Or.inr ⟨before,first,between,tok,behind,rfl,hfirst,hv,(Bool.not_eq_true _).mp hlist⟩

def blank (tokens : List Token) : List (String × Token) := tokens.map (Prod.mk "")

theorem blank_label {tokens : List Token} {l : String × Token} (h : l ∈ blank tokens) :
    l.1 = "" := by
  obtain ⟨_,_,rfl⟩ := List.mem_map.mp h
  rfl

theorem blank_tokens (tokens : List Token) : (blank tokens).map Prod.snd = tokens := by
  rw [blank,List.map_map]
  exact List.map_id _

/-- A token that is neither kept nor a list. -/
theorem broken_lost (before behind : List Token) {tok : Token} (hv : voiced tok = true)
    (hlist : tok.isList = false) (hinline : (inlineTokens tok).isSome = false) :
    ∃ tokens', shapeAll tokens' = shapeAll (before++tok::behind) ∧
      Broken (textsAll true tokens') (itemContents stringify tokens') := by
  let labels := blank before++("x",tok)::blank behind
  have hlabel : ∀ l ∈ labels, 'x' ∈ l.1.toList → l.2 = tok := by
    intro l hl hx
    have hblank : l.1 ≠ "" := fun h => by rw [h] at hx; cases hx
    rcases List.mem_append.mp hl with hl | hl
    · exact absurd (blank_label hl) hblank
    · rcases List.mem_cons.mp hl with rfl | hl
      · rfl
      · exact absurd (blank_label hl) hblank
  refine ⟨labelled labels,?_,fun hkept => ?_⟩
  · rw [shape_labelled,List.map_append,List.map_cons,blank_tokens,blank_tokens]
  have hspeaks := labelled_speaks "x" tok hv
    (show ("x",tok) ∈ labels from List.mem_append_right _ List.mem_cons_self)
  obtain ⟨c,hc,hsub⟩ := kept_mem hkept (List.mem_filter.mpr ⟨hspeaks,by decide⟩)
  have hx : 'x' ∈ c := hsub.subset (by decide)
  rcases List.mem_cons.mp (List.mem_filter.mp hc).1 with rfl | hc
  · rcases itemText_labelled labels with hnil | ⟨l,hl,hsome,htext⟩
    · rw [hnil] at hx
      cases hx
    · rw [hlabel l hl (htext ▸ hx)] at hsome
      exact Bool.false_ne_true (hinline.symm.trans hsome)
  · exact lists_without (by decide) (fun l hl hl' => by rw [hlabel l hl hl',hlist]) c hc hx

theorem late_label {before between behind : List Token} {first tok : Token}
    {l : String × Token}
    (h : l ∈ blank before++("x",first)::(blank between++("y",tok)::blank behind)) :
    l.1 = "" ∨ l = ("x",first) ∨ l = ("y",tok) := by
  rcases List.mem_append.mp h with h | h
  · exact Or.inl (blank_label h)
  · rcases List.mem_cons.mp h with rfl | h
    · exact Or.inr (Or.inl rfl)
    · rcases List.mem_append.mp h with h | h
      · exact Or.inl (blank_label h)
      · rcases List.mem_cons.mp h with rfl | h
        · exact Or.inr (Or.inr rfl)
        · exact Or.inl (blank_label h)

/-- Both letters are among the texts, in this order. -/
theorem late_texts (before between behind : List Token) {first tok : Token}
    (hfirst : voiced first = true) (hv : voiced tok = true) :
    [['x'],['y']].Sublist ((textsAll true (labelled (blank before++("x",first)::
      (blank between++("y",tok)::blank behind)))).filter lettered) := by
  have hx : [['x']].Sublist (texts true (fill "x" first)) :=
    List.singleton_sublist.mpr (fill_speaks hfirst)
  have hy : [['y']].Sublist (textsAll true (labelled (blank between++("y",tok)::blank behind))) :=
    List.singleton_sublist.mpr
      (labelled_speaks "y" tok hv (List.mem_append_right _ List.mem_cons_self))
  rw [labelled_append,textsAll_append]
  exact ((hx.append hy).trans (List.sublist_append_right _ _)).filter lettered

/-- A token that is no list stands behind a text. -/
theorem broken_late (before between behind : List Token) {first tok : Token}
    (hfirst : voiced first = true) (hv : voiced tok = true) (hlist : tok.isList = false) :
    ∃ tokens', shapeAll tokens' = shapeAll (before++first::(between++tok::behind)) ∧
      Broken (textsAll true tokens') (itemContents stringify tokens') := by
  let labels := blank before++("x",first)::(blank between++("y",tok)::blank behind)
  refine ⟨labelled labels,?_,fun hkept => ?_⟩
  · rw [shape_labelled,List.map_append,List.map_cons,List.map_append,List.map_cons,blank_tokens,
      blank_tokens,blank_tokens]
  have hone : ¬(['x'] <:+: inlinesText (itemInline (labelled labels)) ∧
      ['y'] <:+: inlinesText (itemInline (labelled labels))) := by
    rintro ⟨hx,hy⟩
    rcases itemText_labelled labels with hnil | ⟨l,hl,_,htext⟩
    · rw [hnil] at hx
      exact absurd hx (by decide)
    · rw [htext] at hx hy
      rcases late_label hl with h | rfl | rfl
      · rw [h] at hx
        exact absurd hx (by decide)
      · exact absurd (show ['y'] <:+: "x".toList from hy) (by decide)
      · exact absurd (show ['x'] <:+: "y".toList from hx) (by decide)
  have hlists : ∀ l ∈ labels, 'y' ∈ l.1.toList → l.2.isList = false := by
    intro l hl hy
    rcases late_label hl with h | rfl | rfl
    · rw [h] at hy
      cases hy
    · exact absurd (show 'y' ∈ "x".toList from hy) (by decide)
    · exact hlist
  exact not_kept_pair hone
    (fun c hc hy => lists_without (by decide) hlists c hc (hy.subset (by decide)))
    (kept_of_sublist List.filter_sublist
      (kept_sublist (late_texts before between behind hfirst hv) hkept))

theorem broken_item {tokens : List Token} (h : ¬Arranged tokens) :
    ∃ tokens', shapeAll tokens' = shapeAll tokens ∧
      Broken (textsAll true tokens') (itemContents stringify tokens') := by
  rcases unarranged h with ⟨before,tok,behind,rfl,hv,hlist,hinline⟩ |
    ⟨before,first,between,tok,behind,rfl,hfirst,hv,hlist⟩
  · exact broken_lost before behind hv hlist hinline
  · exact broken_late before between behind hfirst hv hlist

end Item

/-! ## Orderly markdown only -/

section Broken

variable (stringify : Json → String)

mutual

theorem broken_token (tok : Token) (h : ¬Orderly tok) : ∃ tok', shape tok' = shape tok ∧
    Broken (texts false tok') (contentsAll (outlines stringify tok')) := by
  cases tok with
  | blockquote tokens =>
    obtain ⟨tokens',hshape,hbroken⟩ := broken_tokens tokens h
    refine ⟨.blockquote tokens',by rw [shape,hshape,shape],?_⟩
    rw [outlines,contentsAll_single,contents]
    exact hbroken.under nofun
  | list ordered items =>
    obtain ⟨items',hshape,hbroken⟩ := broken_items ordered items h
    exact ⟨.list ordered items',by rw [shape,hshape,shape],hbroken⟩
  | _ => exact absurd trivial h

theorem broken_tokens (tokens : List Token) (h : ¬OrderlyAll tokens) :
    ∃ tokens', shapeAll tokens' = shapeAll tokens ∧
      Broken (textsAll false tokens') (contentsAll (outlinesAll stringify tokens')) := by
  cases tokens with
  | nil => exact absurd trivial h
  | cons tok tokens =>
    by_cases htok : Orderly tok
    · obtain ⟨tokens',hshape,hbroken⟩ := broken_tokens tokens (fun hall => h ⟨htok,hall⟩)
      refine ⟨fill "" tok::tokens',by rw [shapeAll,shape_fill,hshape,shapeAll],?_⟩
      rw [textsAll,outlinesAll,contentsAll_append]
      exact hbroken.behind (plain_texts false tok) (contents_fill "" tok)
    · obtain ⟨tok',hshape,hbroken⟩ := broken_token tok htok
      refine ⟨tok'::fillAll "" tokens,by rw [shapeAll,hshape,shapeAll_fill,shapeAll],?_⟩
      rw [textsAll,outlinesAll,contentsAll_append]
      exact hbroken.before (plain_textsAll false tokens) (contentsAll_fill "" tokens)

theorem broken_items (ordered : Bool) (items : List ListItem) (h : ¬OrderlyItems items) :
    ∃ items', itemShapes items' = itemShapes items ∧
      Broken (itemTexts items') (contentsAll (itemOutlines stringify ordered items')) := by
  cases items with
  | nil => exact absurd trivial h
  | cons item items =>
    cases item with
    | mk task checked tokens =>
      by_cases hitem : Arranged tokens ∧ OrderlyLists tokens
      · obtain ⟨items',hshape,hbroken⟩ := broken_items ordered items (fun hall => h ⟨hitem,hall⟩)
        refine ⟨.mk task checked (fillAll "" tokens)::items',?_,?_⟩
        · rw [itemShapes,shapeAll_fill,hshape,itemShapes]
        · rw [itemTexts,itemOutlines_contents]
          exact hbroken.behind (plain_textsAll true tokens) (plain_item tokens)
      · have hone : ∃ tokens', shapeAll tokens' = shapeAll tokens ∧
            Broken (textsAll true tokens') (itemContents stringify tokens') := by
          by_cases harranged : Arranged tokens
          · obtain ⟨tokens',hshape,htext,hbroken⟩ :=
              broken_lists tokens (fun hlists => hitem ⟨harranged,hlists⟩)
            exact ⟨tokens',hshape,hbroken.under (itemText_from (Plain "") nofun htext)⟩
          · exact broken_item harranged
        obtain ⟨tokens',hshape,hbroken⟩ := hone
        refine ⟨.mk task checked tokens'::fillItems "" items,?_,?_⟩
        · rw [itemShapes,hshape,itemShapes_fill,itemShapes]
        · rw [itemTexts,itemOutlines_contents]
          exact hbroken.before (plain_itemTexts items) (contentsItems_fill "" ordered items)

/-- Besides, nothing with a letter is kept of the tokens themselves. -/
theorem broken_lists (tokens : List Token) (h : ¬OrderlyLists tokens) :
    ∃ tokens', shapeAll tokens' = shapeAll tokens ∧
      (∀ tok ∈ tokens', ∀ inline, inlineTokens tok = some inline → Plain "" (inlinesText inline)) ∧
      Broken (textsAll true tokens') (contentsAll (listOutlines stringify tokens')) := by
  cases tokens with
  | nil => exact absurd trivial h
  | cons sub tokens =>
    by_cases hsub : sub.isList = true → Orderly sub
    · obtain ⟨tokens',hshape,htext,hbroken⟩ := broken_lists tokens (fun hall => h ⟨hsub,hall⟩)
      refine ⟨fill "" sub::tokens',by rw [shapeAll,shape_fill,hshape,shapeAll],?_,?_⟩
      · exact List.forall_mem_cons.mpr ⟨fun _ hinline => plain_inline "" (inline_fill hinline),htext⟩
      · rw [textsAll,listOutlines,contentsAll_append]
        refine hbroken.behind (plain_texts true sub) ?_
        split
        · exact contents_fill "" sub
        · exact nofun
    · obtain ⟨hlist,hsub⟩ := Classical.not_imp.mp hsub
      obtain ⟨sub',hshape,hbroken⟩ := broken_token sub hsub
      have hlist' : sub'.isList = true := by rw [← isList_shape,hshape,isList_shape,hlist]
      refine ⟨sub'::fillAll "" tokens,by rw [shapeAll,hshape,shapeAll_fill,shapeAll],?_,?_⟩
      · refine List.forall_mem_cons.mpr ⟨fun inline hinline => ?_,fun tok' htok' inline hinline => ?_⟩
        · obtain ⟨hparagraph,htext⟩ := not_inline_of_list hlist'
          rw [inlineTokens,hparagraph,htext] at hinline
          cases hinline
        · rw [fillAll_eq] at htok'
          obtain ⟨tok,_,rfl⟩ := List.mem_map.mp htok'
          exact plain_inline "" (inline_fill hinline)
      · rw [textsAll,listOutlines,contentsAll_append,if_pos hlist',← texts_item false hlist']
        exact hbroken.before (plain_textsAll true tokens) (contentsLists_fill "" tokens)

end

variable (ids : ℕ → Uuid)

/-- The texts come through, whatever they are, exactly when the list items are arranged. -/
theorem text_preserved_iff (tokens : List Token) :
    (∀ tokens', shapeAll tokens' = shapeAll tokens → TextPreserved stringify ids tokens') ↔
      OrderlyAll tokens := by
  constructor
  · intro hall
    by_contra hnot
    obtain ⟨tokens',hshape,hbroken⟩ := broken_tokens stringify tokens hnot
    have hkept := hall tokens' hshape
    rw [TextPreserved,templates_contents] at hkept
    exact hbroken.not_kept hkept
  · intro horderly tokens' hshape
    rw [TextPreserved,templates_contents]
    refine kept_tokens tokens' ?_
    rw [← orderlyAll_shape,hshape,orderlyAll_shape]
    exact horderly

/-- A list item of two paragraphs. -/
theorem second_paragraph_dropped : ¬∀ (stringify : Json → String) (ids : ℕ → Uuid)
    (tokens : List Token), TextPreserved stringify ids tokens := by
  intro hall
  have hkept := hall (fun _ => "") id
    [.list false [.mk false false [.text "a" [.text "a" []],.space,.text "b" [.text "b" []]]]]
  rw [TextPreserved,templates_contents] at hkept
  obtain ⟨c,hc,hsub⟩ := kept_mem hkept (show ['b'] ∈ _ by decide)
  have hcontents : c = ['a'] := List.mem_singleton.mp hc
  rw [hcontents] at hsub
  exact absurd hsub (by decide)

end Broken

end BlockDocs.DroppedText
