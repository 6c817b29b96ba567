import BlockDocs.InlineNodes
import BlockDocs.ClientRun

/-!
# Pasted markdown

The lexer's tokens become a list of templates: nesting is an index into the list, which
is 0 at the top. A list item keeps the inline tokens of one of its paragraphs.
-/

set_option autoImplicit false

namespace BlockDocs.Markdown
open BlockDocs.InsertionMap BlockDocs.Wire BlockDocs.DocBlocks BlockDocs.InlineNodes
open BlockDocs.BlockStore BlockDocs.ClientRun

/-! ## Tokens -/

/-- An inline token; `literal` is an escape or a piece of HTML. -/
inductive Inline where
  | text (text : String) (tokens : List Inline)
  | strong (tokens : List Inline)
  | em (tokens : List Inline)
  | del (tokens : List Inline)
  | codespan (text : String)
  | link (href text : String) (tokens : List Inline)
  | br
  | image (text : String)
  | literal (text raw : Option String)
  | other (tokens : Option (List Inline)) (text : String)

mutual

/-- A block token. The text of a table is that of its cells. -/
inductive Token where
  | heading (depth : ℕ) (tokens : List Inline)
  | paragraph (tokens : List Inline)
  | code (lang text : String)
  | blockquote (tokens : List Token)
  | hr
  | list (ordered : Bool) (items : List ListItem)
  | html
  | space
  | table (header : List String) (rows : List (List String))
  | text (raw : String) (tokens : List Inline)
  | other (raw : String)

inductive ListItem where
  | mk (task checked : Bool) (tokens : List Token)

end

/-! ## Inline nodes -/

section Inline

variable (stringify : Json → String)

/-- `JSON.stringify` compares the attributes. -/
def marksEqual (a b : List Mark) : Bool :=
  a.length = b.length && (a.zip b).all (fun p => p.1.type = p.2.type &&
    stringify (p.1.attrs.getD .null) = stringify (p.2.attrs.getD .null))

/-- The loop of `mergeAdjacentText`, with the last node that is put out. -/
def mergeFrom (prev : InlineNode) : List InlineNode → List InlineNode
  | [] => [prev]
  | .text t marks'::nodes =>
    match prev with
    | .text s marks =>
      if marksEqual stringify marks marks' then mergeFrom (.text (s++t) marks) nodes
      else .text s marks::mergeFrom (.text t marks') nodes
    | .mention attrs => .mention attrs::mergeFrom (.text t marks') nodes
  | .mention attrs::nodes => prev::mergeFrom (.mention attrs) nodes

def mergeAdjacentText : List InlineNode → List InlineNode
  | [] => []
  | n::nodes => mergeFrom stringify n nodes

mutual

def walkInline (marks : List Mark) : Inline → List InlineNode
  | .text text [] => [.text text marks]
  | .text _ (tok::tokens) => walkInlines marks (tok::tokens)
  | .strong tokens => walkInlines (marks++[⟨.bold,none⟩]) tokens
  | .em tokens => walkInlines (marks++[⟨.italic,none⟩]) tokens
  | .del tokens => walkInlines (marks++[⟨.strike,none⟩]) tokens
  | .codespan text => [.text text (marks++[⟨.code,none⟩])]
  | .link href text [] => [.text text (marks++[⟨.link,some (.obj [("href",.str href)])⟩])]
  | .link href _ (tok::tokens) =>
    walkInlines (marks++[⟨.link,some (.obj [("href",.str href)])⟩]) (tok::tokens)
  | .br => [.text "\n" marks]
  | .image text => [.text text marks]
  | .literal text raw =>
    let text := (text.or raw).getD ""
    if text = "" then [] else [.text text marks]
  | .other (some tokens) _ => walkInlines marks tokens
  | .other none text => if text = "" then [] else [.text text marks]

def walkInlines (marks : List Mark) : List Inline → List InlineNode
  | [] => []
  | tok::tokens => walkInline marks tok++walkInlines marks tokens

end

def inlineFromTokens (tokens : List Inline) (marks : List Mark) : List InlineNode :=
  mergeAdjacentText stringify (walkInlines marks tokens)

end Inline

/-! ## Templates -/

structure BlockContent where
  attrs : Option JsonObj := none
  children : Option (List InlineNode) := none

def BlockContent.json (content : BlockContent) : JsonObj :=
  (content.attrs.map (fun attrs => ("attrs",Json.obj attrs))).toList++
    (content.children.map (fun nodes => ("children",Json.arr (nodes.map InlineNode.json)))).toList

structure MarkdownBlockTemplate where
  blockId : Uuid
  type : String
  content : BlockContent
  parentIndex : ℕ

def plainContent (text : String) : BlockContent := { children := some [.text text []] }

def paragraphTokens : Token → Option (List Inline)
  | .paragraph tokens => some tokens
  | _ => none

def textTokens : Token → Option (List Inline)
  | .text _ tokens => some tokens
  | _ => none

def itemInline (tokens : List Token) : List Inline :=
  ((tokens.findSome? paragraphTokens).or (tokens.findSome? textTokens)).getD []

def Token.isList : Token → Bool
  | .list _ _ => true
  | _ => false

section Push

variable (stringify : Json → String) (ids : ℕ → Uuid)

def pushTemplate (out : List MarkdownBlockTemplate) (type : String) (content : BlockContent)
    (parentIndex : ℕ) : List MarkdownBlockTemplate :=
  out++[⟨ids out.length,type,content,parentIndex⟩]

def codeContent (lang text : String) : BlockContent where
  attrs := some (if lang = "" then [] else [("language",.str lang)])
  children := some [.text text []]

def itemType (ordered task : Bool) : String :=
  if task then "todo" else if ordered then "numbered_list" else "bulleted_list"

def itemContent (task checked : Bool) (tokens : List Token) : BlockContent where
  attrs := if task then some [("checked",.bool checked)] else none
  children := some (inlineFromTokens stringify (itemInline tokens) [])

def headingContent (depth : ℕ) (tokens : List Inline) : BlockContent where
  attrs := some [("level",.num depth)]
  children := some (inlineFromTokens stringify tokens [])

def paragraphContent (tokens : List Inline) : BlockContent :=
  { children := some (inlineFromTokens stringify tokens []) }

def cellLine (cells : List String) : String := String.intercalate " | " cells

mutual

def pushToken : Token → List MarkdownBlockTemplate → ℕ → List MarkdownBlockTemplate
  | .heading depth tokens, out, parentIndex =>
    pushTemplate ids out "heading" (headingContent stringify depth tokens) parentIndex
  | .paragraph tokens, out, parentIndex =>
    pushTemplate ids out "paragraph" (paragraphContent stringify tokens) parentIndex
  | .code lang text, out, parentIndex =>
    pushTemplate ids out "code" (codeContent lang text) parentIndex
  | .blockquote tokens, out, parentIndex =>
    pushTokens tokens (pushTemplate ids out "blockquote" { children := some [] } parentIndex)
      out.length
  | .hr, out, parentIndex => pushTemplate ids out "divider" {} parentIndex
  | .list ordered items, out, parentIndex => pushItems ordered items out parentIndex
  | .html, out, _ => out
  | .space, out, _ => out
  | .table header rows, out, parentIndex =>
    (header::rows).foldl
      (fun out cells => pushTemplate ids out "paragraph" (plainContent (cellLine cells)) parentIndex)
      out
  | .text raw _, out, parentIndex =>
    if raw = "" then out else pushTemplate ids out "paragraph" (plainContent raw) parentIndex
  | .other raw, out, parentIndex =>
    if raw = "" then out else pushTemplate ids out "paragraph" (plainContent raw) parentIndex

def pushTokens : List Token → List MarkdownBlockTemplate → ℕ → List MarkdownBlockTemplate
  | [], out, _ => out
  | tok::tokens, out, parentIndex => pushTokens tokens (pushToken tok out parentIndex) parentIndex

def pushItems (ordered : Bool) :
    List ListItem → List MarkdownBlockTemplate → ℕ → List MarkdownBlockTemplate
  | [], out, _ => out
  | item::items, out, parentIndex =>
    pushItems ordered items (pushItem ordered item out parentIndex) parentIndex

def pushItem (ordered : Bool) :
    ListItem → List MarkdownBlockTemplate → ℕ → List MarkdownBlockTemplate
  | .mk task checked tokens, out, parentIndex =>
    pushLists tokens (pushTemplate ids out (itemType ordered task)
      (itemContent stringify task checked tokens) parentIndex) out.length

def pushLists : List Token → List MarkdownBlockTemplate → ℕ → List MarkdownBlockTemplate
  | [], out, _ => out
  | sub::tokens, out, parentIndex =>
    pushLists tokens (if sub.isList then pushToken sub out parentIndex else out) parentIndex

end

def markdownToBlocks (tokens : List Token) : List MarkdownBlockTemplate :=
  pushTokens stringify ids tokens [] 0

end Push

/-! ## The paste handler -/

/-- Each insert goes behind the one before it. -/
def insertsAfter (parentId : Option Uuid) : Uuid → List MarkdownBlockTemplate → List ClientEvent
  | _, [] => []
  | afterId, t::templates =>
    .insertBlock t.blockId t.type parentId (some afterId) (some t.content.json)::
      insertsAfter parentId t.blockId templates

def onMarkdownPaste (blockId : Uuid) (parentId : Option Uuid) (textLength : Option ℕ)
    (templates : List MarkdownBlockTemplate) : List ClientEvent :=
  if templates.isEmpty then []
  else
    let rootTemplates := templates.filter (fun t => t.parentIndex = 0)
    insertsAfter parentId blockId rootTemplates++
      if textLength = some 0 then [.deleteBlock blockId] else []

example : (markdownToBlocks (fun _ => "") id
    [.blockquote [.paragraph [.text "a" []]],.hr]).map (fun t => (t.type,t.parentIndex)) =
      [("blockquote",0),("paragraph",0),("divider",0)] := by decide

end BlockDocs.Markdown
