import BlockDocs.Rendering

/-!
# The text and the screen

Where the text of the document is not the string of the text, as many units as the string
has characters are deleted from the start on. With an embed among these units, characters
behind it are left over.
-/

set_option autoImplicit false

namespace BlockDocs.Reconciled
open BlockDocs.InsertionMap BlockDocs.Wire BlockDocs.Crdt BlockDocs.InlineNodes
open BlockDocs.RichText BlockDocs.InlineText BlockDocs.Rendering

/-- The caret is put back, which changes neither of them. -/
def reconcileFromDom (isComposing : Bool) (root : List Dom) (yText : YText) : YText :=
  if isComposing then yText
  else
    let dom := textContent root
    let yStr := string yText
    if dom = yStr then yText
    else
      let cleared := if 0 < yStr.length then delete 0 yStr.length yText else yText
      if 0 < dom.length then insert 0 dom none cleared else cleared

section Reconciled

variable (toText : Option Json → String) {root : List Dom} {yText : YText}

def Rendered (root : List Dom) (yText : YText) : Prop :=
  ∃ runs, Delta runs yText ∧ root = renderInlineNodes toText (readInlineNodes runs)

structure Reconciles (root : List Dom) (yText : YText) : Prop where
  equal : string (reconcileFromDom false root yText) = textContent root
  stable : reconcileFromDom false root (reconcileFromDom false root yText) =
    reconcileFromDom false root yText
  kept : Rendered toText root yText → reconcileFromDom false root yText = yText

variable {toText}

theorem reconciled_same (h : textContent root = string yText) :
    reconcileFromDom false root yText = yText := by
  rw [reconcileFromDom,if_neg Bool.false_ne_true]
  exact if_pos h

theorem reconciled_other (h : textContent root ≠ string yText) :
    reconcileFromDom false root yText =
      chars (textContent root) none++yText.drop (string yText).length := by
  have hcleared : (if 0 < (string yText).length then delete 0 (string yText).length yText
      else yText) = yText.drop (string yText).length := by
    split
    · rw [delete,Nat.zero_add]
      rfl
    · next hzero => rw [Nat.eq_zero_of_not_pos hzero,List.drop_zero]
  rw [reconcileFromDom,if_neg Bool.false_ne_true]
  dsimp only
  rw [if_neg h,hcleared]
  split
  · rfl
  · next hzero =>
    rw [List.eq_nil_of_length_eq_zero (Nat.eq_zero_of_not_pos hzero)]
    rfl

/-- Exactly where the text agrees with the document already, or has its embeds behind all
characters and is not what is rendered. -/
theorem reconciles_iff : Reconciles toText root yText ↔
    textContent root = string yText ∨ EmbedsLast yText ∧ ¬Rendered toText root yText := by
  by_cases hsame : textContent root = string yText
  · have hkept := reconciled_same hsame
    refine iff_of_true ⟨?_,?_,fun _ => hkept⟩ (Or.inl hsame)
    · rw [hkept,hsame]
    · rw [hkept,hkept]
  · have hother := reconciled_other hsame
    have hstring : string (reconcileFromDom false root yText) =
        textContent root++string (yText.drop (string yText).length) := by
      rw [hother,string_append,string_chars]
    rw [or_iff_right hsame,← string_drop_iff]
    constructor
    · intro h
      refine ⟨?_,fun hrendered => hsame ?_⟩
      · have hleft := h.equal
        rw [hstring] at hleft
        exact List.append_right_eq_self.mp hleft
      · rw [← h.equal,h.kept hrendered]
    · rintro ⟨hnil,hnot⟩
      rw [hnil,List.append_nil] at hstring
      exact ⟨hstring,reconciled_same hstring.symm,fun hrendered => absurd hrendered hnot⟩

/-! ## Texts without embeds -/

theorem read_embed (value : Json) (format : Option JsonObj) :
    readRun (.embed value,format) = none ∨
      ∃ attrs, readRun (.embed value,format) = some (.mention attrs) := by
  cases value with
  | obj fields =>
    rw [readRun]
    cases lookup "mention" fields with
    | none => exact Or.inl rfl
    | some m =>
      cases htruthy : jsTruthy m with
      | false => exact Or.inl (if_neg (by rw [htruthy]; exact Bool.false_ne_true))
      | true => exact Or.inr ⟨m,if_pos htruthy⟩
  | _ => exact Or.inl rfl

theorem read_shown (run : Chunk × Option JsonObj) :
    (contents (readRun run).toList).flatMap (shown toText) =
      (runUnits run).flatMap (fun u => shown toText u.1) := by
  obtain ⟨chunk,format⟩ := run
  cases chunk with
  | text s =>
    have hcontents : contents [.text s (formatToMarks format)] = (codeUnits s).map .char :=
      List.append_nil _
    rw [readRun,Option.toList_some,hcontents,shown_chars,runUnits,chars,List.flatMap_map]
    exact (List.flatMap_singleton' _).symm
  | embed value =>
    have hformat : readRun (.embed value,format) = readRun (.embed value,none) := by
      cases value <;> rfl
    rw [hformat,runUnits,List.flatMap_singleton]
    rcases read_embed value none with hread | ⟨attrs,hread⟩
    · rw [shown,hread]
      rfl
    · have hcontents : contents [.mention attrs] = [.embed (.obj [("mention",attrs)])] := rfl
      rw [shown,hread,Option.toList_some,hcontents,List.flatMap_singleton,shown_mention]

theorem reads_shown (runs : List (Chunk × Option JsonObj)) :
    (contents (readInlineNodes runs)).flatMap (shown toText) =
      (runs.flatMap runUnits).flatMap (fun u => shown toText u.1) := by
  rw [readInlineNodes,List.filterMap_eq_flatMap_toList,contents,List.flatMap_assoc,
    List.flatMap_assoc,List.flatMap_assoc]
  congr 1
  funext run
  rw [← read_shown run,contents,List.flatMap_assoc]

theorem rendered_text (h : Rendered toText root yText) :
    textContent root = yText.flatMap (fun u => shown toText u.1) := by
  obtain ⟨runs,hdelta,rfl⟩ := h
  have hunits : (runs.flatMap runUnits).map Prod.fst = yText.map Prod.fst :=
    List.forall₂_eq_eq_eq ▸ (List.forall₂_map_left_iff.mpr (List.forall₂_map_right_iff.mpr
      (hdelta.units.imp (fun _ _ => And.left))))
  have hshown := congrArg (List.flatMap (shown toText)) hunits
  rw [List.flatMap_map,List.flatMap_map] at hshown
  rw [render_text,reads_shown,hshown]

/-- Without embeds the text always becomes that of the document. -/
theorem plain_reconciles (h : ∀ u ∈ yText, (charOf u).isSome = true) :
    Reconciles toText root yText := by
  rw [reconciles_iff]
  by_cases hsame : textContent root = string yText
  · exact Or.inl hsame
  · refine Or.inr ⟨?_,fun hrendered => hsame ?_⟩
    · exact List.pairwise_of_forall_mem_list (fun u hu _ _ _ => h u hu)
    · rw [rendered_text hrendered,string,List.filterMap_eq_flatMap_toList]
      refine List.flatMap_congr fun u hu => ?_
      obtain ⟨content,attributes⟩ := u
      cases content with
      | char c => rfl
      | embed value => cases h _ hu

/-- A mention in front of a letter, and its rendering. -/
theorem mention_reconciled : ¬∀ (toText : Option Json → String) (root : List Dom)
    (yText : YText), Reconciles toText root yText := by
  intro hall
  let toText : Option Json → String := fun _ => "1"
  have hequal := (hall toText (renderInlineNodes toText [.mention kim,.text "a" []])
    [(.embed (.obj [("mention",kim)]),none),(.char 97,none)]).equal
  exact absurd hequal (by decide)

end Reconciled

end BlockDocs.Reconciled
