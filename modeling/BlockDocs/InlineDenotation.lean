import BlockDocs.Markdown
import BlockDocs.Fusion
import BlockDocs.JsonString

/-!
# What inline markdown denotes

A tree of inline tokens denotes its characters, each with the marks of the tokens around
it from outside in. The nodes that the walk puts out hold the same characters with the same
marks, and fusing neighbours does not change that: the comparison of two nodes' marks by
their JSON text tells the marks of tokens apart.
-/

set_option autoImplicit false

namespace BlockDocs.InlineDenotation
open BlockDocs.InsertionMap BlockDocs.Wire BlockDocs.InlineNodes BlockDocs.Markdown
open BlockDocs.Fusion BlockDocs.JsonString

/-! ## JSON texts -/

section Stringify

/- The text of a number is a parameter. -/
variable (numberText : ℤ → List Char)

mutual

def jsonText : Json → List Char
  | .null => "null".toList
  | .bool true => "true".toList
  | .bool false => "false".toList
  | .num n => numberText n
  | .str s => quote s.toList
  | .arr items => '['::List.intercalate [','] (itemTexts items)++[']']
  | .obj fields => Char.ofNat 0x7B::List.intercalate [','] (fieldTexts fields)++[Char.ofNat 0x7D]

def itemTexts : List Json → List (List Char)
  | [] => []
  | v::items => jsonText v::itemTexts items

def fieldTexts : List (String × Json) → List (List Char)
  | [] => []
  | field::fields => fieldText field::fieldTexts fields

def fieldText : String × Json → List Char
  | (key,v) => quote key.toList++ ':'::jsonText v

end

def stringify (v : Json) : String := String.ofList (jsonText numberText v)

end Stringify

/-! ## Nodes -/

/-- A node as the editor holds it: the marks of a text may be absent, or an empty list. -/
inductive Node where
  | text (text : String) (marks : Option (List Mark))
  | mention (attrs : Json)

def present : InlineNode → Node
  | .text s marks => .text s (if marks.isEmpty then none else some marks)
  | .mention attrs => .mention attrs

section Merge

variable (numberText : ℤ → List Char)

def marksEqual : Option (List Mark) → Option (List Mark) → Bool
  | none, none => true
  | some a, some b => Markdown.marksEqual (stringify numberText) a b
  | _, _ => false

def merged : Node → Node → Option Node
  | .text s marks, .text t marks' =>
    if marksEqual numberText marks marks' then some (.text (s++t) marks) else none
  | _, _ => none

def mergeAdjacentText (nodes : List Node) : List Node := sweep (merged numberText) nodes

def inlineFromTokens (tokens : List Inline) (marks : List Mark) : List Node :=
  mergeAdjacentText numberText ((walkInlines marks tokens).map present)

end Merge

/-! ## What a tree denotes -/

def linkMark (href : String) : Mark := ⟨.link,some (.obj [("href",.str href)])⟩

def leaf (s : String) (marks : List Mark) : List (Char × List Mark) :=
  s.toList.map fun c => (c,marks)

def under (marks : List Mark) (l : List (Char × List Mark)) : List (Char × List Mark) :=
  l.map fun u => (u.1,marks++u.2)

mutual

def denote : Inline → List (Char × List Mark)
  | .text text [] => leaf text []
  | .text _ (tok::tokens) => denoteAll (tok::tokens)
  | .strong tokens => under [⟨.bold,none⟩] (denoteAll tokens)
  | .em tokens => under [⟨.italic,none⟩] (denoteAll tokens)
  | .del tokens => under [⟨.strike,none⟩] (denoteAll tokens)
  | .codespan text => leaf text [⟨.code,none⟩]
  | .link href text [] => leaf text [linkMark href]
  | .link href _ (tok::tokens) => under [linkMark href] (denoteAll (tok::tokens))
  | .br => leaf "\n" []
  | .image text => leaf text []
  | .literal text raw => leaf ((text.or raw).getD "") []
  | .other (some tokens) _ => denoteAll tokens
  | .other none text => leaf text []

def denoteAll : List Inline → List (Char × List Mark)
  | [] => []
  | tok::tokens => denote tok++denoteAll tokens

end

/-- Absent marks are no marks. -/
def Node.chars : Node → List (Char × List Mark)
  | .text s marks => leaf s (marks.getD [])
  | .mention _ => []

def Node.marks : Node → Option (List Mark)
  | .text _ marks => some (marks.getD [])
  | .mention _ => none

theorem leaf_append (s t : String) (marks : List Mark) :
    leaf (s++t) marks = leaf s marks++leaf t marks := by
  rw [leaf,String.toList_append,List.map_append]
  rfl

theorem under_leaf (marks marks' : List Mark) (s : String) :
    under marks (leaf s marks') = leaf s (marks++marks') := by
  rw [under,leaf,List.map_map]
  rfl

theorem under_under (marks marks' : List Mark) (l : List (Char × List Mark)) :
    under marks (under marks' l) = under (marks++marks') l := by
  rw [under,under,List.map_map]
  apply List.map_congr_left
  intro u _
  simp only [Function.comp_apply,List.append_assoc]

theorem under_append (marks : List Mark) (l l' : List (Char × List Mark)) :
    under marks (l++l') = under marks l++under marks l' := List.map_append

theorem present_chars (s : String) (marks : List Mark) :
    (present (.text s marks)).chars = leaf s marks := by
  cases marks with
  | nil => rfl
  | cons m marks => rfl

/-! ## The walk -/

/-- A single text node in a context of marks. -/
theorem single_chars (s : String) (marks : List Mark) :
    [InlineNode.text s marks].flatMap (fun n => (present n).chars) = leaf s marks := by
  rw [List.flatMap_singleton,present_chars]

mutual

theorem walk_denotes (marks : List Mark) (tok : Inline) :
    (walkInline marks tok).flatMap (fun n => (present n).chars) = under marks (denote tok) := by
  cases tok with
  | text text tokens =>
    cases tokens with
    | nil => rw [walkInline,denote,single_chars,under_leaf,List.append_nil]
    | cons tok tokens => exact walks_denote marks (tok::tokens)
  | strong tokens => rw [walkInline,denote,walks_denote _ tokens,under_under]
  | em tokens => rw [walkInline,denote,walks_denote _ tokens,under_under]
  | del tokens => rw [walkInline,denote,walks_denote _ tokens,under_under]
  | codespan text => rw [walkInline,denote,single_chars,under_leaf]
  | link href text tokens =>
    cases tokens with
    | nil =>
      rw [walkInline,denote,single_chars,under_leaf]
      rfl
    | cons tok tokens =>
      rw [walkInline,denote,walks_denote _ (tok::tokens),under_under]
      rfl
  | br => rw [walkInline,denote,single_chars,under_leaf,List.append_nil]
  | image text => rw [walkInline,denote,single_chars,under_leaf,List.append_nil]
  | literal text raw =>
    rw [walkInline,denote,under_leaf,List.append_nil]
    split
    · next hempty => rw [hempty]; rfl
    · exact single_chars _ marks
  | other tokens text =>
    cases tokens with
    | none =>
      rw [walkInline,denote,under_leaf,List.append_nil]
      split
      · next hempty => rw [hempty]; rfl
      · exact single_chars _ marks
    | some tokens => rw [walkInline,denote,walks_denote marks tokens]

theorem walks_denote (marks : List Mark) (tokens : List Inline) :
    (walkInlines marks tokens).flatMap (fun n => (present n).chars) =
      under marks (denoteAll tokens) := by
  cases tokens with
  | nil => rfl
  | cons tok tokens =>
    rw [walkInlines,List.flatMap_append,walk_denotes marks tok,walks_denote marks tokens,
      denoteAll,under_append]

end

inductive TokenMark : Mark → Prop where
  | bold : TokenMark ⟨.bold,none⟩
  | italic : TokenMark ⟨.italic,none⟩
  | strike : TokenMark ⟨.strike,none⟩
  | code : TokenMark ⟨.code,none⟩
  | link (href : String) : TokenMark (linkMark href)

/-- A text with marks of tokens behind those of the context. -/
def Walked (marks : List Mark) (n : InlineNode) : Prop :=
  ∃ s x, n = .text s (marks++x) ∧ ∀ m ∈ x, TokenMark m

theorem walked_plain (marks : List Mark) (s : String) : Walked marks (.text s marks) :=
  ⟨s,[],by rw [List.append_nil],nofun⟩

theorem walked_marked {marks : List Mark} {m : Mark} (hm : TokenMark m) {n : InlineNode}
    (h : Walked (marks++[m]) n) : Walked marks n := by
  obtain ⟨s,x,rfl,hx⟩ := h
  refine ⟨s,m::x,?_,List.forall_mem_cons.mpr ⟨hm,hx⟩⟩
  rw [List.append_assoc]
  rfl

theorem walked_single {marks : List Mark} {m : Mark} (hm : TokenMark m) (s : String) :
    ∀ n ∈ [InlineNode.text s (marks++[m])], Walked marks n :=
  List.forall_mem_singleton.mpr (walked_marked hm (walked_plain _ s))

theorem walked_unless_empty (marks : List Mark) (s : String) :
    ∀ n ∈ (if s = "" then [] else [InlineNode.text s marks]), Walked marks n := by
  intro n hn
  split at hn
  · simp at hn
  · rw [List.mem_singleton.mp hn]
    exact walked_plain marks s

mutual

theorem walk_walked (marks : List Mark) (tok : Inline) :
    ∀ n ∈ walkInline marks tok, Walked marks n := by
  cases tok with
  | text text tokens =>
    cases tokens with
    | nil => exact List.forall_mem_singleton.mpr (walked_plain marks text)
    | cons tok tokens => exact walks_walked marks (tok::tokens)
  | strong tokens => exact fun n hn => walked_marked .bold (walks_walked _ tokens n hn)
  | em tokens => exact fun n hn => walked_marked .italic (walks_walked _ tokens n hn)
  | del tokens => exact fun n hn => walked_marked .strike (walks_walked _ tokens n hn)
  | codespan text => exact walked_single .code text
  | link href text tokens =>
    cases tokens with
    | nil => exact walked_single (.link href) text
    | cons tok tokens =>
      exact fun n hn => walked_marked (.link href) (walks_walked _ (tok::tokens) n hn)
  | br => exact List.forall_mem_singleton.mpr (walked_plain marks "\n")
  | image text => exact List.forall_mem_singleton.mpr (walked_plain marks text)
  | literal text raw => exact walked_unless_empty marks _
  | other tokens text =>
    cases tokens with
    | none => exact walked_unless_empty marks text
    | some tokens => exact walks_walked marks tokens

theorem walks_walked (marks : List Mark) (tokens : List Inline) :
    ∀ n ∈ walkInlines marks tokens, Walked marks n := by
  cases tokens with
  | nil => exact nofun
  | cons tok tokens =>
    rw [walkInlines]
    exact List.forall_mem_append.mpr ⟨walk_walked marks tok,walks_walked marks tokens⟩

end

/-! ## The comparison of marks -/

section Compare

variable {numberText : ℤ → List Char}

theorem link_text_injective {href href' : String}
    (h : stringify numberText (.obj [("href",.str href)]) =
      stringify numberText (.obj [("href",.str href')])) : href = href' := by
  have hchars := String.ofList_injective h
  simp only [jsonText,fieldTexts,fieldText,List.intercalate_singleton] at hchars
  have hfield := List.append_cancel_right (List.cons.inj hchars).2
  have hvalue := (List.cons.inj (List.append_cancel_left hfield)).2
  exact String.toList_injective (quote_injective hvalue)

/-- Marks of tokens are told apart by their types and the texts of their attributes. -/
theorem tokenMark_eq {m m' : Mark} (hm : TokenMark m) (hm' : TokenMark m')
    (htype : m.type = m'.type)
    (htext : stringify numberText (m.attrs.getD .null) =
      stringify numberText (m'.attrs.getD .null)) : m = m' := by
  cases hm with
  | link href =>
    cases hm' with
    | link href' => rw [link_text_injective htext]
    | _ => cases htype
  | _ =>
    cases hm' with
    | _ => first | rfl | cases htype

theorem marksEqual_cons {m m' : Mark} {a b : List Mark}
    (h : Markdown.marksEqual (stringify numberText) (m::a) (m'::b) = true) :
    m.type = m'.type ∧ stringify numberText (m.attrs.getD .null) =
        stringify numberText (m'.attrs.getD .null) ∧
      Markdown.marksEqual (stringify numberText) a b = true := by
  simp only [Markdown.marksEqual,List.length_cons,List.zip_cons_cons,List.all_cons,
    Bool.and_eq_true,decide_eq_true_eq,Nat.add_right_cancel_iff] at h ⊢
  exact ⟨h.2.1.1,h.2.1.2,h.1,h.2.2⟩

theorem marksEqual_refl (marks : List Mark) :
    Markdown.marksEqual (stringify numberText) marks marks = true := by
  rw [Markdown.marksEqual,decide_eq_true rfl,Bool.true_and]
  apply List.all_eq_true.mpr
  intro p hp
  have hsame : p.1 = p.2 := by
    rw [List.zip,List.zipWith_self] at hp
    obtain ⟨m,_,rfl⟩ := List.mem_map.mp hp
    rfl
  rw [hsame]
  simp

theorem tokenMarks_eq {x y : List Mark} (hx : ∀ m ∈ x, TokenMark m) (hy : ∀ m ∈ y, TokenMark m)
    (h : Markdown.marksEqual (stringify numberText) x y = true) : x = y := by
  induction x generalizing y with
  | nil =>
    cases y with
    | nil => rfl
    | cons m' y => simp [Markdown.marksEqual] at h
  | cons m x ih =>
    cases y with
    | nil => simp [Markdown.marksEqual] at h
    | cons m' y =>
      obtain ⟨hm,hx⟩ := List.forall_mem_cons.mp hx
      obtain ⟨hm',hy⟩ := List.forall_mem_cons.mp hy
      obtain ⟨htype,htext,hrest⟩ := marksEqual_cons h
      rw [tokenMark_eq hm hm' htype htext,ih hx hy hrest]

theorem marksEqual_context {marks x y : List Mark} (hx : ∀ m ∈ x, TokenMark m)
    (hy : ∀ m ∈ y, TokenMark m)
    (h : Markdown.marksEqual (stringify numberText) (marks++x) (marks++y) = true) : x = y := by
  induction marks with
  | nil => exact tokenMarks_eq hx hy h
  | cons m marks ih => exact ih (marksEqual_cons h).2.2

end Compare

/-! ## The nodes that are fused -/

section Merge

variable (numberText : ℤ → List Char)

theorem merged_text {s t : String} {a b : Option (List Mark)} {n : Node}
    (h : merged numberText (.text s a) (.text t b) = some n) :
    marksEqual numberText a b = true ∧ n = .text (s++t) a := by
  simp only [merged] at h
  split at h
  · next heq => exact ⟨heq,(Option.some.inj h).symm⟩
  · cases h

/-- Whether a node can be fused depends on the marks of the one before it only. -/
theorem merged_keepsFront : KeepsFront (merged numberText) := by
  intro p a b n hab hpa
  cases a with
  | mention attrs => cases hab
  | text s marks =>
    cases b with
    | mention attrs => cases hab
    | text t marks' =>
      obtain ⟨_,rfl⟩ := merged_text numberText hab
      cases p with
      | mention attrs => rfl
      | text u marks'' =>
        simp only [merged] at hpa ⊢
        split at hpa
        · cases hpa
        · next hne => rw [if_neg hne]

theorem mergeAdjacentText_idempotent (nodes : List Node) :
    mergeAdjacentText numberText (mergeAdjacentText numberText nodes) =
      mergeAdjacentText numberText nodes :=
  sweep_idempotent (merged_keepsFront numberText) nodes

theorem present_marksEqual (a b : List Mark) :
    marksEqual numberText (if a.isEmpty then none else some a)
      (if b.isEmpty then none else some b) =
        Markdown.marksEqual (stringify numberText) a b := by
  cases a with
  | nil =>
    cases b with
    | nil => rfl
    | cons m' b => rfl
  | cons m a =>
    cases b with
    | nil => rfl
    | cons m' b => rfl

def WalkedNode (marks : List Mark) (n : Node) : Prop := ∃ m, Walked marks m ∧ n = present m

theorem walked_merged {marks : List Mark} {a b n : Node} (ha : WalkedNode marks a)
    (hb : WalkedNode marks b) (h : merged numberText a b = some n) :
    ∃ s t x, (∀ m ∈ x, TokenMark m) ∧ a = present (.text s (marks++x)) ∧
      b = present (.text t (marks++x)) ∧ n = present (.text (s++t) (marks++x)) := by
  obtain ⟨_,⟨s,x,rfl,hx⟩,rfl⟩ := ha
  obtain ⟨_,⟨t,y,rfl,hy⟩,rfl⟩ := hb
  obtain ⟨heq,rfl⟩ := merged_text numberText h
  rw [present_marksEqual] at heq
  cases marksEqual_context hx hy heq
  exact ⟨s,t,x,hx,rfl,rfl,rfl⟩

/-- Fused nodes hold the characters of both with their marks. -/
theorem walked_reads (marks : List Mark) :
    Reads (merged numberText) (WalkedNode marks) Node.chars where
  keeps := by
    intro a b n ha hb h
    obtain ⟨s,t,x,hx,_,_,rfl⟩ := walked_merged numberText ha hb h
    exact ⟨_,⟨s++t,x,rfl,hx⟩,rfl⟩
  parts := by
    intro a b n ha hb h
    obtain ⟨s,t,x,_,rfl,rfl,rfl⟩ := walked_merged numberText ha hb h
    rw [present_chars,present_chars,present_chars,leaf_append]

theorem walked_tokens (tokens : List Inline) (marks : List Mark) :
    ∀ n ∈ (walkInlines marks tokens).map present, WalkedNode marks n := by
  intro n hn
  obtain ⟨m,hm,rfl⟩ := List.mem_map.mp hn
  exact ⟨m,walks_walked marks tokens m hm,rfl⟩

theorem inlineFromTokens_chars (tokens : List Inline) (marks : List Mark) :
    (inlineFromTokens numberText tokens marks).flatMap Node.chars =
      under marks (denoteAll tokens) := by
  have hread := sweep_reads (walked_reads numberText marks) (walked_tokens tokens marks)
  rw [← walks_denote marks tokens]
  exact hread.2.trans (List.flatMap_map _ _ _)

theorem present_marks (s : String) (marks : List Mark) :
    (present (.text s marks)).marks = some marks := by
  cases marks with
  | nil => rfl
  | cons m marks => rfl

/-- Two texts of the walk that cannot be fused have different marks. -/
theorem walked_apart {marks : List Mark} {a b : Node} (ha : WalkedNode marks a)
    (hb : WalkedNode marks b) (h : merged numberText a b = none) : a.marks ≠ b.marks := by
  obtain ⟨_,⟨s,x,rfl,_⟩,rfl⟩ := ha
  obtain ⟨_,⟨t,y,rfl,_⟩,rfl⟩ := hb
  rw [present_marks,present_marks]
  intro heq
  have hsame : Markdown.marksEqual (stringify numberText) (marks++y) (marks++y) = true :=
    marksEqual_refl _
  rw [Option.some.inj heq] at h
  have hpresent := (present_marksEqual numberText (marks++y) (marks++y)).trans hsame
  simp only [present,merged,if_pos hpresent] at h
  cases h

theorem inlineFromTokens_apart (tokens : List Inline) (marks : List Mark) :
    (inlineFromTokens numberText tokens marks).IsChain (fun n n' => n.marks ≠ n'.marks) := by
  have hread := sweep_reads (walked_reads numberText marks) (walked_tokens tokens marks)
  have hapart := apart_sweep (merged_keepsFront numberText)
    ((walkInlines marks tokens).map present)
  apply List.IsChain.imp_of_mem_imp _ hapart
  intro n n' hn hn' h
  exact walked_apart numberText (hread.1 n hn) (hread.1 n' hn') h

/-! ## The nodes of the paste -/

def fusedNode : InlineNode → InlineNode → Option InlineNode
  | .text s marks, .text t marks' =>
    if Markdown.marksEqual (stringify numberText) marks marks' then some (.text (s++t) marks)
    else none
  | _, _ => none

theorem mergeFrom_eq (prev : InlineNode) (nodes : List InlineNode) :
    mergeFrom (stringify numberText) prev nodes = sweepFrom (fusedNode numberText) prev nodes := by
  induction nodes generalizing prev with
  | nil => rfl
  | cons n nodes ih =>
    cases n with
    | mention attrs =>
      have hnone : fusedNode numberText prev (.mention attrs) = none := by cases prev <;> rfl
      rw [mergeFrom,sweepFrom_none hnone,ih]
    | text t marks' =>
      cases prev with
      | mention attrs => rw [mergeFrom,sweepFrom_none rfl,ih]
      | text s marks =>
        rw [mergeFrom]
        split
        · next heq =>
          have hsome : fusedNode numberText (.text s marks) (.text t marks') =
              some (.text (s++t) marks) := if_pos heq
          rw [sweepFrom_some hsome,ih]
        · next hne =>
          have hnone : fusedNode numberText (.text s marks) (.text t marks') = none := if_neg hne
          rw [sweepFrom_none hnone,ih]

theorem merged_present (a b : InlineNode) :
    merged numberText (present a) (present b) = (fusedNode numberText a b).map present := by
  cases a with
  | mention attrs => cases b <;> rfl
  | text s marks =>
    cases b with
    | mention attrs => rfl
    | text t marks' =>
      simp only [present,merged,fusedNode,present_marksEqual]
      split <;> rfl

/-- The templates hold the same nodes. -/
theorem inlineFromTokens_present (tokens : List Inline) (marks : List Mark) :
    inlineFromTokens numberText tokens marks =
      (Markdown.inlineFromTokens (stringify numberText) tokens marks).map present := by
  rw [inlineFromTokens,mergeAdjacentText,sweep_map present (merged_present numberText),
    Markdown.inlineFromTokens]
  congr 1
  cases walkInlines marks tokens with
  | nil => rfl
  | cons n nodes => exact (mergeFrom_eq numberText n nodes).symm

/-! ## The conversion -/

/-- The output denotes the token tree below the given marks, neighbouring texts differ in
their marks, and merging once more changes no list of nodes. -/
theorem inlineFromTokens_denotes :
    (∀ (tokens : List Inline) (marks : List Mark),
      (inlineFromTokens numberText tokens marks).flatMap Node.chars =
          under marks (denoteAll tokens) ∧
        (inlineFromTokens numberText tokens marks).IsChain fun n n' =>
          ∀ a b, n.marks = some a → n'.marks = some b → a ≠ b) ∧
    ∀ nodes : List Node, mergeAdjacentText numberText (mergeAdjacentText numberText nodes) =
      mergeAdjacentText numberText nodes := by
  refine ⟨fun tokens marks => ⟨inlineFromTokens_chars numberText tokens marks,?_⟩,
    mergeAdjacentText_idempotent numberText⟩
  refine List.IsChain.imp (fun n n' hne a b ha hb hab => hne ?_)
    (inlineFromTokens_apart numberText tokens marks)
  rw [ha,hb,hab]

end Merge

end BlockDocs.InlineDenotation
