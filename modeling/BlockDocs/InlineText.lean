import BlockDocs.InlineNodes
import BlockDocs.RichText

/-!
# Inline nodes in a text

Nodes are written into an empty text one after the other and read back from its runs.
Texts are compared unit by unit, so that runs can be cut in any way.
-/

set_option autoImplicit false

namespace BlockDocs.InlineText
open BlockDocs.InsertionMap BlockDocs.Wire BlockDocs.Crdt BlockDocs.InlineNodes
open BlockDocs.RichText

/-! ## Code units -/

def charUnits (c : Char) : List UInt16 :=
  if c.toNat < 0x10000 then [c.toNat.toUInt16]
  else [(0xD800+(c.toNat-0x10000)/0x400).toUInt16,(0xDC00+(c.toNat-0x10000)%0x400).toUInt16]

def codeUnits (s : String) : List UInt16 := s.toList.flatMap charUnits

theorem length_codeUnits (s : String) : (codeUnits s).length = utf16Length s := by
  rw [codeUnits,List.length_flatMap,utf16Length]
  congr 1
  apply List.map_congr_left
  intro c _
  rw [charUnits]
  split <;> rfl

theorem codeUnits_eq_nil {s : String} : codeUnits s = [] ↔ s = "" := by
  rw [codeUnits,List.flatMap_eq_nil_iff]
  constructor
  · intro h
    have hnil : s.toList = [] := by
      rw [List.eq_nil_iff_forall_not_mem]
      intro c hc
      have hunits := h c hc
      rw [charUnits] at hunits
      split at hunits <;> cases hunits
    exact String.toList_eq_nil_iff.mp hnil
  · rintro rfl c hc
    cases hc

/-! ## Writing -/

abbrev YText := Text UInt16 Json JsonObj

def perform (t : YText) (call : Insertion) : YText :=
  match call.chunk with
  | .text s => insert call.index (codeUnits s) call.format t
  | .embed value => insertEmbed call.index value t

def written (nodes : List InlineNode) : YText := (applyInlineNodes nodes).foldl perform []

def unitsAfter (last : Option JsonObj) : List InlineNode → YText
  | [] => []
  | .text s marks::nodes =>
    let format := (marksToFormat marks).or last
    chars (codeUnits s) format++unitsAfter (if s = "" then last else format) nodes
  | .mention attrs::nodes => (.embed (.obj [("mention",attrs)]),none)::unitsAfter none nodes

theorem perform_text (t : YText) (s : String) (format : Option JsonObj) :
    perform t ⟨t.length,.text s,format⟩ =
      t++chars (codeUnits s) (format.or (lastAttributes t)) := insert_end _ _ t

theorem perform_embed (t : YText) (value : Json) :
    perform t ⟨t.length,.embed value,none⟩ = t++[(.embed value,none)] := insertEmbed_end value t

theorem perform_insertions (nodes : List InlineNode) (t : YText) :
    (insertionsFrom t.length nodes).foldl perform t = t++unitsAfter (lastAttributes t) nodes := by
  induction nodes generalizing t with
  | nil => exact (List.append_nil t).symm
  | cons n nodes ih =>
    cases n with
    | text s marks =>
      have hlength : t.length+utf16Length s =
          (t++chars (codeUnits s) ((marksToFormat marks).or (lastAttributes t))).length := by
        rw [List.length_append,chars,List.length_map,length_codeUnits]
      have hlast : lastAttributes (t++chars (codeUnits s)
          ((marksToFormat marks).or (lastAttributes t))) =
            if s = "" then lastAttributes t else (marksToFormat marks).or (lastAttributes t) := by
        split
        · next hs => rw [codeUnits_eq_nil.mpr hs,chars,List.map_nil,List.append_nil]
        · next hs => exact lastAttributes_chars (fun h => hs (codeUnits_eq_nil.mp h))
      rw [insertionsFrom,List.foldl_cons,perform_text,hlength,ih,hlast,List.append_assoc]
      rfl
    | mention attrs =>
      have hlength : t.length+1 =
          (t++[(Content.embed (Json.obj [("mention",attrs)]),none)]).length := by
        rw [List.length_append,List.length_singleton]
      rw [insertionsFrom,List.foldl_cons,perform_embed,hlength,ih,lastAttributes_embed,
        List.append_assoc]
      rfl

theorem written_eq (nodes : List InlineNode) : written nodes = unitsAfter none nodes := by
  have h := perform_insertions nodes []
  rwa [List.nil_append] at h

/-! ## Reading -/

def SameUnit (u v : Content UInt16 Json × Option JsonObj) : Prop :=
  u.1 = v.1 ∧ SameFormat u.2 v.2

def runUnits : Chunk × Option JsonObj → YText
  | (.text s,format) => chars (codeUnits s) format
  | (.embed value,format) => [(.embed value,format)]

def textFormat : Chunk × Option JsonObj → Option (Option JsonObj)
  | (.text _,format) => some format
  | (.embed _,_) => none

/-- Runs of text are as long as their attributes are the same. -/
structure Delta (runs : List (Chunk × Option JsonObj)) (t : YText) : Prop where
  units : List.Forall₂ SameUnit (runs.flatMap runUnits) t
  filled : ∀ s format, (.text s,format) ∈ runs → s ≠ ""
  maximal : runs.IsChain (fun r r' => ∀ f f', textFormat r = some f → textFormat r' = some f' →
    ¬SameFormat f f')

inductive Item where
  | char (c : UInt16) (marks : List Mark)
  | mention (attrs : Json)

inductive SameItem : Item → Item → Prop where
  | char (c : UInt16) {marks marks' : List Mark} (h : marks.Perm marks') :
      SameItem (.char c marks) (.char c marks')
  | mention (attrs : Json) : SameItem (.mention attrs) (.mention attrs)

def nodeItems : InlineNode → List Item
  | .text s marks => (codeUnits s).map (fun c => .char c marks)
  | .mention attrs => [.mention attrs]

def items (nodes : List InlineNode) : List Item := nodes.flatMap nodeItems

/-! ## Marks and formats -/

/-- The marks differ in type, and those of links and comments have an object for attributes. -/
def Attributed (marks : List Mark) : Prop :=
  (marks.map Mark.type).Nodup ∧
    ∀ m ∈ marks, m.type.simple = false → ∃ fields, m.attrs = some (.obj fields)

def stripped (m : Mark) : Mark := if m.type.simple then plainMark m.type else m

theorem formatEntry_stripped (m : Mark) : formatEntry (stripped m) = formatEntry m := by
  unfold stripped
  split
  · next h => simp only [formatEntry,plainMark,formatValue,h,if_true]
  · rfl

theorem stripped_eq {m : Mark} : stripped m = m ↔ (m.type.simple = true → m.attrs = none) := by
  unfold stripped
  split
  · next h =>
    constructor
    · intro heq _
      rw [← heq]
      rfl
    · intro hattrs
      rw [plainMark,← hattrs h]
  · next h => exact iff_of_true rfl (fun hsimple => absurd hsimple h)

theorem stripped_idem (m : Mark) : stripped (stripped m) = stripped m := by
  by_cases h : m.type.simple = true
  · have hplain : stripped m = plainMark m.type := if_pos h
    rw [hplain]
    exact stripped_eq.mpr (fun _ => rfl)
  · have hself : stripped m = m := if_neg h
    rw [hself,hself]

theorem markOf_entry {m : Mark}
    (h : m.type.simple = false → ∃ fields, m.attrs = some (.obj fields)) :
    markOf (formatEntry m).1 (formatEntry m).2 = some (stripped m) := by
  obtain ⟨type,attrs⟩ := m
  cases type
  case link =>
    obtain ⟨fields,hfields⟩ := h rfl
    cases hfields
    rfl
  case comment =>
    obtain ⟨fields,hfields⟩ := h rfl
    cases hfields
    rfl
  all_goals rfl

theorem filterMap_entries {marks : List Mark}
    (h : ∀ m ∈ marks, m.type.simple = false → ∃ fields, m.attrs = some (.obj fields)) :
    (marks.map formatEntry).filterMap (fun e => markOf e.1 e.2) = marks.map stripped := by
  induction marks with
  | nil => rfl
  | cons m marks ih =>
    rw [List.map_cons,List.filterMap_cons,markOf_entry (h m List.mem_cons_self),
      ih (fun m' hm' => h m' (List.mem_cons_of_mem m hm'))]
    rfl

/-- In the order of the attributes. -/
theorem formatToMarks_same {marks : List Mark} (h : Attributed marks) {format : Option JsonObj}
    (hformat : SameFormat format (marksToFormat marks)) :
    (formatToMarks format).Perm (marks.map stripped) := by
  rw [marksToFormat_distinct h.1] at hformat
  split at hformat
  · next hempty =>
    cases hformat
    rw [List.isEmpty_iff.mp hempty]
    exact List.Perm.refl _
  · cases hformat with
    | some hperm =>
      rw [← filterMap_entries h.2]
      exact hperm.filterMap _

theorem stripped_perm_iff {marks : List Mark} :
    (marks.map stripped).Perm marks ↔ ∀ m ∈ marks, m.type.simple = true → m.attrs = none := by
  constructor
  · intro hperm m hm
    obtain ⟨m',_,rfl⟩ := List.mem_map.mp (hperm.mem_iff.mpr hm)
    exact stripped_eq.mp (stripped_idem m')
  · intro h
    rw [List.map_congr_left (fun m hm => stripped_eq.mpr (h m hm)),List.map_id']

theorem sameFormat_refl (f : Option JsonObj) : SameFormat f f := by
  cases f with
  | none => exact .none
  | some l => exact .some (List.Perm.refl l)

theorem formatToMarks_perm {f f' : Option JsonObj} (h : SameFormat f f') :
    (formatToMarks f).Perm (formatToMarks f') := by
  cases h with
  | none => exact List.Perm.refl _
  | some hperm => exact hperm.filterMap _

/-! ## Units and items -/

variable {a b c d us : List Item} {t u : YText}

theorem sameItem_trans {x y z : Item} (h : SameItem x y) (h' : SameItem y z) : SameItem x z := by
  cases h with
  | char c hperm =>
    cases h' with
    | char _ hperm' => exact .char c (hperm.trans hperm')
  | mention attrs => exact h'

theorem sameItem_symm {x y : Item} (h : SameItem x y) : SameItem y x := by
  cases h with
  | char c hperm => exact .char c hperm.symm
  | mention attrs => exact .mention attrs

theorem forall₂_trans {γ : Type*} {R : γ → γ → Prop}
    (hR : ∀ x y z, R x y → R y z → R x z) {k l m : List γ} (h : List.Forall₂ R k l)
    (h' : List.Forall₂ R l m) : List.Forall₂ R k m := by
  induction h generalizing m with
  | nil => exact h'
  | cons hone _ ih =>
    cases h' with
    | cons hone' hrest => exact .cons (hR _ _ _ hone hone') (ih hrest)

theorem sameItems_symm (h : List.Forall₂ SameItem a b) : List.Forall₂ SameItem b a :=
  h.flip.imp (fun _ _ => sameItem_symm)

theorem sameItems_append_iff (hlength : a.length = c.length) :
    List.Forall₂ SameItem (a++b) (c++d) ↔
      List.Forall₂ SameItem a c ∧ List.Forall₂ SameItem b d := by
  constructor
  · intro h
    have htake := List.forall₂_take a.length h
    have hdrop := List.forall₂_drop a.length h
    rw [List.take_left,hlength,List.take_left] at htake
    rw [List.drop_left,hlength,List.drop_left] at hdrop
    exact ⟨htake,hdrop⟩
  · exact fun h => List.rel_append h.1 h.2

def unitItems : Content UInt16 Json × Option JsonObj → List Item
  | (.char c,format) => [.char c (formatToMarks format)]
  | (.embed value,format) => items (readRun (.embed value,format)).toList

theorem chars_items (s : List UInt16) (format : Option JsonObj) :
    (chars s format : YText).flatMap unitItems =
      s.map (fun c => .char c (formatToMarks format)) := by
  rw [chars,List.flatMap_map,List.map_eq_flatMap]
  rfl

theorem items_read (runs : List (Chunk × Option JsonObj)) :
    items (readInlineNodes runs) = (runs.flatMap runUnits).flatMap unitItems := by
  induction runs with
  | nil => rfl
  | cons run runs ih =>
    rw [List.flatMap_cons,List.flatMap_append,← ih]
    obtain ⟨chunk,format⟩ := run
    cases chunk with
    | text s =>
      rw [runUnits,chars_items]
      rfl
    | embed value =>
      rw [readInlineNodes,List.filterMap_cons,runUnits,List.flatMap_singleton,unitItems]
      cases readRun (.embed value,format) with
      | none => rfl
      | some n => simp [items,readInlineNodes]

theorem sameItems_units (h : List.Forall₂ SameUnit t u) :
    List.Forall₂ SameItem (t.flatMap unitItems) (u.flatMap unitItems) := by
  induction h with
  | nil => exact .nil
  | @cons x y xs ys hone _ ih =>
    rw [List.flatMap_cons,List.flatMap_cons]
    refine List.rel_append ?_ ih
    obtain ⟨content,format⟩ := x
    obtain ⟨content',format'⟩ := y
    obtain ⟨hcontent,hformat⟩ := hone
    cases hcontent
    cases content with
    | char c => exact .cons (.char c (formatToMarks_perm hformat)) .nil
    | embed value =>
      have hsame : readRun (.embed value,format) = readRun (.embed value,format') := by
        cases value <;> rfl
      rw [unitItems,unitItems,hsame]
      refine List.forall₂_same.mpr fun item _ => ?_
      cases item with
      | char c marks => exact .char c (List.Perm.refl _)
      | mention attrs => exact .mention attrs

end BlockDocs.InlineText
