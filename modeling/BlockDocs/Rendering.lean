import BlockDocs.InlineText

/-!
# Rendered inline nodes

A text node becomes a text in one wrapper for each of its marks, a mention becomes a span
with its label. Offsets count the characters of all texts, those of labels as well.
-/

set_option autoImplicit false

namespace BlockDocs.Rendering
open BlockDocs.InsertionMap BlockDocs.Wire BlockDocs.Crdt BlockDocs.InlineNodes
open BlockDocs.RichText BlockDocs.InlineText

/-! ## The renderer -/

inductive Dom where
  | text (data : List UInt16)
  | element (tag : String) (attributes : List (String × String)) (children : List Dom)

def member (key : String) : Json → Option Json
  | .obj fields => lookup key fields
  | _ => none

section Render

variable (toText : Option Json → String)

def asString : Option Json → String
  | some (.str s) => s
  | value => toText value

def attributeOf (name : String) (value : Option Json) : List (String × String) :=
  match value with
  | some v => if jsTruthy v then [(name,asString toText (some v))] else []
  | none => []

/-- What `textContent` makes of the label: null and undefined are the empty text. -/
def labelText (attrs : Json) : List UInt16 :=
  match member "label" attrs with
  | none => []
  | some .null => []
  | some label => codeUnits (asString toText (some label))

def wrapMark (child : Dom) (m : Mark) : Dom :=
  match m.type with
  | .link => .element "a" (attributeOf toText "href" (m.attrs.bind (member "href"))++
      [("target","_blank"),("rel","noreferrer noopener")]) [child]
  | .comment => .element "span" (("class","comment-anchor")::
      attributeOf toText "data-comment-id" (m.attrs.bind (member "commentId"))) [child]
  | .bold => .element "strong" [] [child]
  | .italic => .element "em" [] [child]
  | .strike => .element "s" [] [child]
  | .code => .element "code" [] [child]

def buildInlineNode : InlineNode → Dom
  | .text s marks => marks.foldl (wrapMark toText) (.text (codeUnits s))
  | .mention attrs =>
    .element "span" [("class","mention"),
        ("data-user-id",asString toText (member "userId" attrs)),("contenteditable","false")]
      (if labelText toText attrs = [] then [] else [.text (labelText toText attrs)])

/-- The children of the root; a line break keeps it selectable. -/
def renderInlineNodes (nodes : List InlineNode) : List Dom :=
  if nodes.isEmpty then [.element "br" [] []] else nodes.map (buildInlineNode toText)

end Render

/-! ## Texts and offsets -/

mutual

def domText : Dom → List UInt16
  | .text data => data
  | .element _ _ children => textContent children

def textContent : List Dom → List UInt16
  | [] => []
  | d::ds => domText d++textContent ds

end

/-- A node, by the way to it from the root, and an offset in it. -/
structure Point where
  path : List ℕ
  offset : ℕ
  deriving DecidableEq

def textBefore : List Dom → List ℕ → ℕ → List UInt16
  | children, [], offset => textContent (children.take offset)
  | children, k::path, offset => textContent (children.take k)++
    match children[k]? with
    | some (.text data) => data.take offset
    | some (.element _ _ inner) => textBefore inner path offset
    | none => []

def getSelectionOffset (root : List Dom) (p : Point) : ℕ :=
  (textBefore root p.path p.offset).length

/-! ## Units -/

def nodeContents : InlineNode → List (Content UInt16 Json)
  | .text s _ => (codeUnits s).map .char
  | .mention attrs => [.embed (.obj [("mention",attrs)])]

def contents (nodes : List InlineNode) : List (Content UInt16 Json) := nodes.flatMap nodeContents

section Texts

variable (toText : Option Json → String)

def shown : Content UInt16 Json → List UInt16
  | .char c => [c]
  | .embed value =>
    match readRun (.embed value,none) with
    | some (.mention attrs) => labelText toText attrs
    | _ => []

variable {toText} {nodes : List InlineNode}

theorem shown_chars (s : List UInt16) : (s.map Content.char).flatMap (shown toText) = s := by
  rw [List.flatMap_map]
  exact List.flatMap_singleton' s

theorem shown_mention (attrs : Json) :
    shown toText (.embed (.obj [("mention",attrs)])) = labelText toText attrs := by
  have hread : readRun (.embed (.obj [("mention",attrs)]),none) =
      if jsTruthy attrs then some (.mention attrs) else none := rfl
  rw [shown,hread]
  cases htruthy : jsTruthy attrs with
  | true => rfl
  | false =>
    cases attrs with
    | obj fields => cases htruthy
    | _ => rfl

theorem textContent_single (d : Dom) : textContent [d] = domText d := List.append_nil _

theorem wrapMark_element (child : Dom) (m : Mark) :
    ∃ tag attributes, wrapMark toText child m = .element tag attributes [child] := by
  obtain ⟨type,attrs⟩ := m
  cases type <;> exact ⟨_,_,rfl⟩

theorem wrapped_text (d : Dom) (marks : List Mark) :
    domText (marks.foldl (wrapMark toText) d) = domText d := by
  induction marks generalizing d with
  | nil => rfl
  | cons m marks ih =>
    obtain ⟨tag,attributes,hwrap⟩ := @wrapMark_element toText d m
    rw [List.foldl_cons,ih,hwrap,domText,textContent_single]

theorem build_text (n : InlineNode) :
    domText (buildInlineNode toText n) = (nodeContents n).flatMap (shown toText) := by
  cases n with
  | text s marks =>
    rw [buildInlineNode,wrapped_text,nodeContents,shown_chars]
    rfl
  | mention attrs =>
    rw [buildInlineNode,nodeContents,List.flatMap_singleton,shown_mention,domText]
    split
    · next hlabel => rw [hlabel]; rfl
    · exact textContent_single _

theorem built_text (nodes : List InlineNode) :
    textContent (nodes.map (buildInlineNode toText)) = (contents nodes).flatMap (shown toText) := by
  induction nodes with
  | nil => rfl
  | cons n nodes ih =>
    have hcontents : contents (n::nodes) = nodeContents n++contents nodes := rfl
    rw [List.map_cons,textContent,ih,build_text,hcontents,List.flatMap_append]

theorem render_text (nodes : List InlineNode) :
    textContent (renderInlineNodes toText nodes) = (contents nodes).flatMap (shown toText) := by
  rw [renderInlineNodes]
  cases nodes with
  | nil => rfl
  | cons n nodes => exact built_text (n::nodes)

/-! ## Points between units -/

variable (toText)

def depth : InlineNode → ℕ
  | .text _ marks => marks.length
  | .mention attrs => if labelText toText attrs = [] then 0 else 1

inductive Lies (nodes : List InlineNode) : Point → ℕ → Prop where
  | between (k : ℕ) (hk : k ≤ (renderInlineNodes toText nodes).length) :
      Lies nodes ⟨[],k⟩ (contents (nodes.take k)).length
  | before {k d : ℕ} {n : InlineNode} (hn : nodes[k]? = some n) (hd : d ≤ depth toText n) :
      Lies nodes ⟨k::List.replicate d 0,0⟩ (contents (nodes.take k)).length
  | behind {k d : ℕ} {n : InlineNode} (hn : nodes[k]? = some n) (hd : d < depth toText n) :
      Lies nodes ⟨k::List.replicate d 0,1⟩ (contents (nodes.take (k+1))).length
  | inside {k o : ℕ} {s : String} {marks : List Mark} (hn : nodes[k]? = some (.text s marks))
      (ho : o ≤ (codeUnits s).length) : Lies nodes ⟨k::List.replicate marks.length 0,o⟩
        ((contents (nodes.take k)).length+o)
  | labelEnd {k : ℕ} {attrs : Json} (hn : nodes[k]? = some (.mention attrs))
      (hlabel : labelText toText attrs ≠ []) :
      Lies nodes ⟨[k,0],(labelText toText attrs).length⟩ (contents (nodes.take (k+1))).length

variable {toText}

theorem contents_append (nodes nodes' : List InlineNode) :
    contents (nodes++nodes') = contents nodes++contents nodes' := List.flatMap_append

theorem contents_take (nodes : List InlineNode) (k : ℕ) :
    (contents nodes).take (contents (nodes.take k)).length = contents (nodes.take k) := by
  conv_lhs => rw [← List.take_append_drop k nodes,contents_append]
  rw [List.take_append_drop]
  exact List.take_left

theorem contents_take_le (nodes : List InlineNode) (k : ℕ) :
    (contents (nodes.take k)).length ≤ (contents nodes).length := by
  rw [← contents_take]
  exact List.length_take_le' _ _

theorem contents_split {k : ℕ} {n : InlineNode} (hn : nodes[k]? = some n) :
    contents nodes = contents (nodes.take k)++(nodeContents n++contents (nodes.drop (k+1))) := by
  obtain ⟨hk,hget⟩ := List.getElem?_eq_some_iff.mp hn
  conv_lhs => rw [← List.take_append_drop k nodes,contents_append,List.drop_eq_getElem_cons hk,hget]
  rfl

theorem contents_next {k : ℕ} {n : InlineNode} (hn : nodes[k]? = some n) :
    contents (nodes.take (k+1)) = contents (nodes.take k)++nodeContents n := by
  rw [List.take_add_one,hn,contents_append]
  congr 1
  exact List.append_nil _

/-- In front of the children of the node `k` there are the texts of the nodes before it. -/
theorem before_node {k : ℕ} {n : InlineNode} (hn : nodes[k]? = some n) (path : List ℕ) (o : ℕ) :
    textBefore (renderInlineNodes toText nodes) (k::path) o =
      (contents (nodes.take k)).flatMap (shown toText)++
        textBefore [buildInlineNode toText n] (0::path) o := by
  have hrender : renderInlineNodes toText nodes = nodes.map (buildInlineNode toText) := by
    cases nodes with
    | nil => cases hn
    | cons n nodes => rfl
  rw [hrender,textBefore,← List.map_take,built_text,List.getElem?_map,hn]
  rfl

theorem lies_le {p : Point} {i : ℕ} (h : Lies toText nodes p i) : i ≤ (contents nodes).length := by
  cases h with
  | between k hk => exact contents_take_le nodes k
  | @before k d n hn hd => exact contents_take_le nodes k
  | @behind k d n hn hd => exact contents_take_le nodes (k+1)
  | @inside k o s marks hn ho =>
    have hlength : (nodeContents (.text s marks)).length = (codeUnits s).length :=
      List.length_map _
    rw [contents_split hn,List.length_append,List.length_append,hlength]
    omega
  | @labelEnd k attrs hn hlabel => exact contents_take_le nodes (k+1)

inductive Nest : ℕ → Dom → Dom → Prop where
  | self (dom : Dom) : Nest 0 dom dom
  | wrap {d : ℕ} {child inner : Dom} (tag : String) (attributes : List (String × String))
      (h : Nest d child inner) : Nest (d+1) (.element tag attributes [child]) inner

theorem nest_before {d : ℕ} {outer inner : Dom} (h : Nest d outer inner) (o : ℕ) :
    textBefore [outer] (0::List.replicate d 0) o = textBefore [inner] [0] o := by
  induction h with
  | self dom => rfl
  | wrap tag attributes _ ih => exact ih

theorem nest_text {d : ℕ} {outer inner : Dom} (h : Nest d outer inner) :
    domText inner = domText outer := by
  induction h with
  | self dom => rfl
  | wrap tag attributes _ ih => rw [ih,domText,textContent_single]

theorem nest_marks (dom : Dom) (marks : List Mark) {d : ℕ} (hd : d ≤ marks.length) :
    Nest d (marks.foldl (wrapMark toText) dom)
      ((marks.take (marks.length-d)).foldl (wrapMark toText) dom) := by
  induction marks using List.reverseRecOn generalizing d with
  | nil =>
    obtain rfl := Nat.le_zero.mp hd
    exact .self dom
  | append_singleton marks m ih =>
    cases d with
    | zero =>
      rw [Nat.sub_zero,List.take_length]
      exact .self _
    | succ d =>
      rw [List.length_append,List.length_singleton] at hd ⊢
      have htake : (marks++[m]).take (marks.length+1-(d+1)) = marks.take (marks.length-d) := by
        rw [Nat.add_sub_add_right,List.take_append_of_le_length (Nat.sub_le _ _)]
      obtain ⟨tag,attributes,hwrap⟩ :=
        @wrapMark_element toText (marks.foldl (wrapMark toText) dom) m
      rw [htake,List.foldl_concat,hwrap]
      exact .wrap tag attributes (ih (by omega))

theorem mention_labelled {attrs : Json} (hlabel : labelText toText attrs ≠ []) :
    ∃ attributes, buildInlineNode toText (.mention attrs) =
      .element "span" attributes [.text (labelText toText attrs)] :=
  ⟨_,by rw [buildInlineNode,if_neg hlabel]⟩

/-- Each wrapper of a node has one child. -/
theorem nest_node (n : InlineNode) {d : ℕ} (hd : d ≤ depth toText n) :
    ∃ inner, Nest d (buildInlineNode toText n) inner ∧
      (d < depth toText n → ∃ tag attributes child, inner = .element tag attributes [child]) := by
  cases n with
  | text s marks =>
    refine ⟨_,nest_marks _ marks hd,fun hlt => ?_⟩
    change d < marks.length at hlt
    rcases List.eq_nil_or_concat' (marks.take (marks.length-d)) with hnil | ⟨outer,m,hconcat⟩
    · have hlength := congrArg List.length hnil
      rw [List.length_take,List.length_nil] at hlength
      omega
    · rw [hconcat,List.foldl_concat]
      obtain ⟨tag,attributes,hwrap⟩ :=
        @wrapMark_element toText (outer.foldl (wrapMark toText) (.text (codeUnits s))) m
      exact ⟨tag,attributes,_,hwrap⟩
  | mention attrs =>
    rw [depth] at hd ⊢
    by_cases hlabel : labelText toText attrs = []
    · rw [if_pos hlabel] at hd ⊢
      obtain rfl := Nat.le_zero.mp hd
      exact ⟨_,.self _,fun hlt => absurd hlt (Nat.lt_irrefl 0)⟩
    · rw [if_neg hlabel] at hd ⊢
      obtain ⟨attributes,hbuild⟩ := mention_labelled hlabel
      rw [hbuild]
      cases d with
      | zero => exact ⟨_,.self _,fun _ => ⟨_,_,_,rfl⟩⟩
      | succ d =>
        obtain rfl : d = 0 := by omega
        exact ⟨_,.wrap _ _ (.self _),fun hlt => absurd hlt (Nat.lt_irrefl 1)⟩

theorem textBefore_start (dom : Dom) : textBefore [dom] [0] 0 = [] := by cases dom <;> rfl

theorem textBefore_end {dom : Dom}
    (h : ∃ tag attributes child, dom = .element tag attributes [child]) :
    textBefore [dom] [0] 1 = domText dom := by
  obtain ⟨tag,attributes,child,rfl⟩ := h
  rfl

/-- The text before a point is that of the units before it. -/
theorem textBefore_lies {p : Point} {i : ℕ} (h : Lies toText nodes p i) :
    textBefore (renderInlineNodes toText nodes) p.path p.offset =
      ((contents nodes).take i).flatMap (shown toText) := by
  cases h with
  | between k hk =>
    rw [contents_take,← built_text,List.map_take,textBefore,renderInlineNodes]
    cases nodes with
    | nil =>
      cases k with
      | zero => rfl
      | succ k =>
        have htake : [Dom.element "br" [] []].take (k+1) = [Dom.element "br" [] []] := by
          rw [List.take_succ_cons,List.take_nil]
        have htext := congrArg textContent htake
        rw [List.map_nil,List.take_nil]
        exact htext
    | cons n nodes => rfl
  | @before k d n hn hd =>
    obtain ⟨inner,hnest,_⟩ := nest_node n hd
    rw [before_node hn,nest_before hnest,textBefore_start,contents_take,List.append_nil]
  | @behind k d n hn hd =>
    obtain ⟨inner,hnest,hinner⟩ := nest_node n (Nat.le_of_lt hd)
    rw [before_node hn,nest_before hnest,textBefore_end (hinner hd),nest_text hnest,build_text,
      contents_take,contents_next hn,List.flatMap_append]
  | @inside k o s marks hn ho =>
    have hnest := @nest_marks toText (.text (codeUnits s)) marks _ (Nat.le_refl _)
    rw [Nat.sub_self,List.take_zero,List.foldl_nil] at hnest
    have hunits : (nodeContents (.text s marks)).take o =
        ((codeUnits s).take o).map Content.char := List.map_take.symm
    have hlength : o ≤ (nodeContents (.text s marks)).length := by
      rw [nodeContents,List.length_map]
      exact ho
    rw [before_node hn,buildInlineNode,nest_before hnest,contents_split hn,
      List.take_length_add_append,List.take_append_of_le_length hlength,hunits,
      List.flatMap_append,shown_chars]
    rfl
  | @labelEnd k attrs hn hlabel =>
    obtain ⟨attributes,hbuild⟩ := mention_labelled hlabel
    have hlabelled : textBefore [buildInlineNode toText (.mention attrs)] (0::[0])
        (labelText toText attrs).length = labelText toText attrs := by
      rw [hbuild]
      exact List.take_length
    rw [before_node hn,hlabelled,contents_take,contents_next hn,List.flatMap_append,nodeContents,
      List.flatMap_singleton,shown_mention]

end Texts

end BlockDocs.Rendering
