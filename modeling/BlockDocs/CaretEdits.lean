import BlockDocs.Rendering

/-!
# Edits at the caret

The handlers take the offsets of the selection for indices of the text. An offset counts
the characters of a label, an index counts a mention as one unit.
-/

set_option autoImplicit false

namespace BlockDocs.CaretEdits
open BlockDocs.InsertionMap BlockDocs.Wire BlockDocs.Crdt BlockDocs.InlineNodes
open BlockDocs.RichText BlockDocs.InlineText BlockDocs.Rendering

/-! ## The handlers -/

structure Selection where
  start : Point
  stop : Point

def rangeText (root : List Dom) (sel : Selection) : List UInt16 :=
  (textBefore root sel.stop.path sel.stop.offset).drop (getSelectionOffset root sel.start)

def selectionOffsets (root : List Dom) (sel : Selection) : ℕ × ℕ :=
  let offset := getSelectionOffset root sel.stop
  if sel.start = sel.stop then (offset,offset)
  else
    let selStart := getSelectionOffset root sel.start
    (selStart,selStart+(rangeText root sel).length)

section Handlers

variable {χ ε α : Type*}

def deleteRange (selStart selEnd : ℕ) (yText : Text χ ε α) : Text χ ε α :=
  if selStart < selEnd then delete selStart (selEnd-selStart) yText else yText

def insertText (selStart selEnd : ℕ) (data : List χ) (yText : Text χ ε α) : Text χ ε α :=
  RichText.insert selStart data none (deleteRange selStart selEnd yText)

inductive BackspaceCall where
  | onBackspaceAtEmpty
  | onBackspaceAtStart

def deleteContentBackward (selStart selEnd : ℕ) (yText : Text χ ε α) :
    Text χ ε α × Option BackspaceCall :=
  if selStart < selEnd then (delete selStart (selEnd-selStart) yText,none)
  else if selStart = 0 then
    (yText,some (if yText.length = 0 then .onBackspaceAtEmpty else .onBackspaceAtStart))
  else (delete (selStart-1) 1 yText,none)

end Handlers

/-! ## Units with numbers -/

abbrev Numbered := Text (UInt16 × ℕ) (Json × ℕ) JsonObj

def value : Content (UInt16 × ℕ) (Json × ℕ) → Content UInt16 Json
  | .char c => .char c.1
  | .embed e => .embed e.1

def number : Content (UInt16 × ℕ) (Json × ℕ) → ℕ
  | .char c => c.2
  | .embed e => e.2

def numbers (t : Numbered) : List ℕ := t.map (fun u => number u.1)

structure Holds (nodes : List InlineNode) (t : Numbered) : Prop where
  values : t.map (fun u => value u.1) = contents nodes
  distinct : (numbers t).Nodup

/-- Text goes between the first `i` units and those behind the first `j`, and what is
removed are the units between them, or else the one before them. -/
structure AtSelection (t : Numbered) (selStart selEnd i j : ℕ) : Prop where
  inserted : ∀ data : List (UInt16 × ℕ), (∀ c ∈ data, c.2 ∉ numbers t) →
    ∃ attributes, insertText selStart selEnd data t =
      t.take i++chars data attributes++t.drop j
  removed : (deleteContentBackward selStart selEnd t).1 =
    if i < j then t.take i++t.drop j else t.take (i-1)++t.drop i

section Offsets

variable {t : Numbered} {selStart selEnd i j : ℕ}

theorem mem_deleteRange {u : Content (UInt16 × ℕ) (Json × ℕ) × Option JsonObj}
    (h : u ∈ deleteRange selStart selEnd t) : u ∈ t := by
  rw [deleteRange] at h
  split at h
  · rcases List.mem_append.mp h with h | h
    · exact List.mem_of_mem_take h
    · exact List.mem_of_mem_drop h
  · exact h

/-- A fresh character shows where text is put. -/
theorem inserted_where (h : AtSelection t selStart selEnd i j) :
    (deleteRange selStart selEnd t).take selStart = t.take i ∧
      (deleteRange selStart selEnd t).drop selStart = t.drop j := by
  obtain ⟨fresh,hfresh⟩ := Infinite.exists_notMem_finset (numbers t).toFinset
  rw [List.mem_toFinset] at hfresh
  obtain ⟨attributes,hinsert⟩ := h.inserted [(0,fresh)]
    (fun c hc => by rw [List.mem_singleton.mp hc]; exact hfresh)
  have hnot : (Content.char (0,fresh),attributes) ∉ deleteRange selStart selEnd t :=
    fun hmem => hfresh (List.mem_map.mpr ⟨_,mem_deleteRange hmem,rfl⟩)
  rw [insertText,RichText.insert,List.append_assoc,List.append_assoc] at hinsert
  have hsplit := (List.append_cons_inj_of_notMem (fun hmem => hnot (List.mem_of_mem_take hmem))
    (fun hmem => hnot (List.mem_of_mem_drop hmem))).mp hinsert
  exact ⟨hsplit.1,hsplit.2.2⟩

/-- The numbers show which unit is removed. -/
theorem removed_where (hdistinct : (numbers t).Nodup) (hi : 0 < i) (hlength : i ≤ t.length)
    (hstart : selStart ≠ 0) (h : delete (selStart-1) 1 t = t.take (i-1)++t.drop i) :
    selStart = i := by
  have hnodup : t.Nodup := List.Nodup.of_map _ hdistinct
  rw [delete,show selStart-1+1 = selStart by omega] at h
  have hlengths := congrArg List.length h
  rw [List.length_append,List.length_append,List.length_take,List.length_take,List.length_drop,
    List.length_drop] at hlengths
  have herase : t.eraseIdx (selStart-1) = t.eraseIdx (i-1) := by
    rw [List.eraseIdx_eq_take_drop_succ,List.eraseIdx_eq_take_drop_succ,
      show selStart-1+1 = selStart by omega,show i-1+1 = i by omega,h]
  by_contra hne
  have hlt : selStart-1 < t.length := by omega
  have hkept : t[selStart-1] ∈ t.eraseIdx (i-1) :=
    List.mem_eraseIdx_iff_getElem.mpr ⟨selStart-1,hlt,by omega,rfl⟩
  rw [← herase] at hkept
  obtain ⟨k,hk,hother,hget⟩ := List.mem_eraseIdx_iff_getElem.mp hkept
  exact hother ((hnodup.getElem_inj_iff).mp hget)

theorem inserted_at (data : List (UInt16 × ℕ)) (hstart : selStart ≤ t.length)
    (h : deleteRange selStart selEnd t = t.take selStart++t.drop j) :
    ∃ attributes, insertText selStart selEnd data t =
      t.take selStart++chars data attributes++t.drop j := by
  have hlength : (t.take selStart).length = selStart := List.length_take_of_le hstart
  refine ⟨inForce selStart (t.take selStart++t.drop j),?_⟩
  rw [insertText,h,RichText.insert,List.take_left' hlength,List.drop_left' hlength]
  rfl

theorem backward_caret (selStart : ℕ) (t : Numbered) :
    (deleteContentBackward selStart selStart t).1 =
      if selStart = 0 then t else delete (selStart-1) 1 t := by
  rw [deleteContentBackward,if_neg (Nat.lt_irrefl _)]
  split <;> rfl

theorem backward_range (t : Numbered) (h : selStart < selEnd) :
    (deleteContentBackward selStart selEnd t).1 = delete selStart (selEnd-selStart) t := by
  rw [deleteContentBackward,if_pos h]

theorem at_caret_iff (hdistinct : (numbers t).Nodup) (hi : i ≤ t.length)
    (hzero : i = 0 → selStart = 0) : AtSelection t selStart selStart i i ↔ selStart = i := by
  constructor
  · intro h
    have hremoved := h.removed
    rw [if_neg (Nat.lt_irrefl i),backward_caret] at hremoved
    rcases Nat.eq_zero_or_pos i with rfl | hpos
    · exact hzero rfl
    · by_cases hstart : selStart = 0
      · rw [if_pos hstart] at hremoved
        have hlengths := congrArg List.length hremoved
        rw [List.length_append,List.length_take,List.length_drop] at hlengths
        omega
      · rw [if_neg hstart] at hremoved
        exact removed_where hdistinct hpos hi hstart hremoved
  · rintro rfl
    refine ⟨fun data _ => inserted_at data hi ?_,?_⟩
    · rw [deleteRange,if_neg (Nat.lt_irrefl _),List.take_append_drop]
    · rw [if_neg (Nat.lt_irrefl _),backward_caret]
      split
      · next hstart =>
        subst hstart
        rfl
      · next hstart =>
        rw [delete,show selStart-1+1 = selStart by omega]

theorem at_range_iff (hij : i < j) (hj : j ≤ t.length) : AtSelection t selStart selEnd i j ↔
    selStart = i ∧ min selEnd t.length = j := by
  constructor
  · intro h
    obtain ⟨htake,hdrop⟩ := inserted_where h
    have hbefore := congrArg List.length htake
    have hbehind := congrArg List.length hdrop
    rw [deleteRange] at hbefore hbehind
    split at hbefore
    · next hlt =>
      rw [if_pos hlt,delete] at hbehind
      simp only [delete,List.length_take,List.length_drop,List.length_append] at hbefore hbehind
      omega
    · next hlt =>
      rw [if_neg hlt] at hbehind
      simp only [List.length_take,List.length_drop] at hbefore hbehind
      omega
  · rintro ⟨rfl,hmin⟩
    have hlt : selStart < selEnd := by omega
    have hremoved : delete selStart (selEnd-selStart) t = t.take selStart++t.drop j := by
      rw [delete,show selStart+(selEnd-selStart) = selEnd by omega]
      congr 1
      rcases Nat.le_total selEnd t.length with hle | hle
      · rw [← hmin,Nat.min_eq_left hle]
      · rw [← hmin,Nat.min_eq_right hle,List.drop_length,List.drop_eq_nil_of_le hle]
    refine ⟨fun data _ => inserted_at data (by omega) ?_,?_⟩
    · rw [deleteRange,if_pos hlt,hremoved]
    · rw [if_pos hij,backward_range t hlt,hremoved]

end Offsets

/-! ## Offsets of the rendering -/

section Selection

variable (toText : Option Json → String) {nodes : List InlineNode}

def width (nodes : List InlineNode) (i : ℕ) : ℕ :=
  (((contents nodes).take i).flatMap (shown toText)).length

variable {toText}

theorem offset_lies {p : Point} {i : ℕ} (h : Lies toText nodes p i) :
    getSelectionOffset (renderInlineNodes toText nodes) p = width toText nodes i := by
  rw [getSelectionOffset,textBefore_lies h,width]

theorem width_mono {i j : ℕ} (hij : i ≤ j) : width toText nodes i ≤ width toText nodes j := by
  obtain ⟨k,rfl⟩ := Nat.exists_eq_add_of_le hij
  rw [width,width,List.take_add,List.flatMap_append,List.length_append]
  exact Nat.le_add_right _ _

theorem selection_offsets {sel : Selection} {i j : ℕ} (hstart : Lies toText nodes sel.start i)
    (hstop : Lies toText nodes sel.stop j) (hij : i ≤ j) :
    selectionOffsets (renderInlineNodes toText nodes) sel =
      (width toText nodes i,width toText nodes j) := by
  rw [selectionOffsets]
  split
  · next hsame =>
    have hoffset := offset_lies hstart
    rw [hsame] at hoffset
    rw [offset_lies hstop] at hoffset ⊢
    rw [hoffset]
  · have hmono := @width_mono toText nodes i j hij
    rw [rangeText,List.length_drop,← getSelectionOffset,offset_lies hstop,offset_lies hstart]
    dsimp only
    rw [Nat.add_sub_cancel' hmono]

theorem edits_at_widths {sel : Selection} {i j : ℕ} {t : Numbered}
    (hstart : Lies toText nodes sel.start i) (hstop : Lies toText nodes sel.stop j)
    (hij : i ≤ j) (hholds : Holds nodes t) :
    AtSelection t (selectionOffsets (renderInlineNodes toText nodes) sel).1
        (selectionOffsets (renderInlineNodes toText nodes) sel).2 i j ↔
      width toText nodes i = i ∧
        (i < j → min (width toText nodes j) (contents nodes).length = j) := by
  have hlength : t.length = (contents nodes).length := by
    rw [← hholds.values,List.length_map]
  have hj : j ≤ t.length := hlength ▸ lies_le hstop
  rw [selection_offsets hstart hstop hij,← hlength]
  rcases Nat.eq_or_lt_of_le hij with rfl | hlt
  · rw [at_caret_iff hholds.distinct hj (fun hzero => by rw [hzero]; rfl)]
    exact (and_iff_left (fun hlt => absurd hlt (Nat.lt_irrefl i))).symm
  · rw [at_range_iff hlt hj,imp_iff_right hlt]

/-! ## Labels -/

variable (toText) in
def labelLength : Content UInt16 Json → Option ℕ
  | .char _ => none
  | .embed value => some (shown toText (.embed value)).length

variable (toText) in
def labelLengths (nodes : List InlineNode) (i : ℕ) : List ℕ :=
  ((contents nodes).take i).filterMap (labelLength toText)

theorem length_shown (us : List (Content UInt16 Json)) :
    (us.flatMap (shown toText)).length+(us.filterMap (labelLength toText)).length =
      us.length+(us.filterMap (labelLength toText)).sum := by
  induction us with
  | nil => rfl
  | cons u us ih =>
    rw [List.flatMap_cons,List.length_append,List.length_cons]
    cases u with
    | char c =>
      have hshown : (shown toText (.char c)).length = 1 := rfl
      rw [List.filterMap_cons_none rfl,hshown]
      omega
    | embed value =>
      have hlabel : labelLength toText (.embed value) =
          some (shown toText (.embed value)).length := rfl
      rw [List.filterMap_cons_some hlabel,List.length_cons,List.sum_cons]
      omega

theorem width_labels {i : ℕ} (hi : i ≤ (contents nodes).length) :
    width toText nodes i+(labelLengths toText nodes i).length =
      i+(labelLengths toText nodes i).sum := by
  have h := @length_shown toText ((contents nodes).take i)
  rwa [List.length_take_of_le hi] at h

/-- Edits meet the selection exactly when the labels before its start have as many characters
as there are mentions, and so have those before its end, or at the end of the text more. -/
theorem edits_at_selection_iff (sel : Selection) (i j : ℕ) (t : Numbered)
    (hstart : Lies toText nodes sel.start i) (hstop : Lies toText nodes sel.stop j)
    (hij : i ≤ j) (hholds : Holds nodes t) :
    AtSelection t (selectionOffsets (renderInlineNodes toText nodes) sel).1
        (selectionOffsets (renderInlineNodes toText nodes) sel).2 i j ↔
      (labelLengths toText nodes i).sum = (labelLengths toText nodes i).length ∧
        (i < j → (labelLengths toText nodes j).sum = (labelLengths toText nodes j).length ∨
          j = (contents nodes).length ∧
            (labelLengths toText nodes j).length ≤ (labelLengths toText nodes j).sum) := by
  rw [edits_at_widths hstart hstop hij hholds]
  have hj := lies_le hstop
  have hbefore := @width_labels toText nodes i (hij.trans hj)
  have hbehind := @width_labels toText nodes j hj
  refine and_congr (by omega) (imp_congr_right fun _ => ?_)
  omega

def letters : List InlineNode := [.text "ab" []]

/-- The second letter is selected. -/
theorem letter_selected : AtSelection [(.char (97,0),none),(.char (98,1),none)]
      (selectionOffsets (renderInlineNodes (fun _ => "") letters) ⟨⟨[0],1⟩,⟨[0],2⟩⟩).1
      (selectionOffsets (renderInlineNodes (fun _ => "") letters) ⟨⟨[0],1⟩,⟨[0],2⟩⟩).2 1 2 ↔
    (labelLengths (fun _ => "") letters 1).sum = (labelLengths (fun _ => "") letters 1).length ∧
      (1 < 2 → (labelLengths (fun _ => "") letters 2).sum =
          (labelLengths (fun _ => "") letters 2).length ∨
        2 = (contents letters).length ∧ (labelLengths (fun _ => "") letters 2).length ≤
          (labelLengths (fun _ => "") letters 2).sum) :=
  edits_at_selection_iff ⟨⟨[0],1⟩,⟨[0],2⟩⟩ 1 2 _
    (@Lies.inside (fun _ => "") letters 0 1 "ab" [] rfl (by decide))
    (@Lies.inside (fun _ => "") letters 0 2 "ab" [] rfl (by decide)) (by decide) ⟨rfl,by decide⟩

/-- The caret is at the end, behind a mention and a letter. -/
theorem letter_behind_mention : ¬∀ (toText : Option Json → String) (nodes : List InlineNode)
    (sel : Selection) (i j : ℕ) (t : Numbered), Lies toText nodes sel.start i →
      Lies toText nodes sel.stop j → i ≤ j → Holds nodes t →
      AtSelection t (selectionOffsets (renderInlineNodes toText nodes) sel).1
        (selectionOffsets (renderInlineNodes toText nodes) sel).2 i j := by
  intro hall
  let t : Numbered := [(.embed (.obj [("mention",kim)],0),none),(.char (97,1),none)]
  have hend : Lies (fun _ => "1") [.mention kim,.text "a" []] ⟨[1],1⟩ 2 :=
    @Lies.inside (fun _ => "1") [.mention kim,.text "a" []] 1 1 "a" [] rfl (by decide)
  have hremoved := (hall (fun _ => "1") [.mention kim,.text "a" []] ⟨⟨[1],1⟩,⟨[1],1⟩⟩ 2 2 t hend
    hend (Nat.le_refl 2) ⟨rfl,by decide⟩).removed
  exact absurd (congrArg List.length hremoved) (by decide)

end Selection

end BlockDocs.CaretEdits
