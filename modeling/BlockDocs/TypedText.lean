import BlockDocs.CaretEdits
import BlockDocs.MarkToggle
import BlockDocs.PlacedCaret
import BlockDocs.Reconciled

/-!
# Typing into a block

A block is shown to its user as a string with a selection. Where it holds no mention, the
handlers keep the text, the document and the selection in step with that string, whatever
is typed, pasted, composed or formatted, and whatever comes in from others. What is typed
comes in as an edit of the browser: the handler of `beforeinput` throws.
-/

set_option autoImplicit false

namespace BlockDocs.TypedText
open BlockDocs.Wire BlockDocs.RichText BlockDocs.InlineText BlockDocs.Rendering
open BlockDocs.CaretEdits BlockDocs.MarkToggle BlockDocs.PlacedCaret BlockDocs.Reconciled

/-! ## The handlers of a block -/

/-- `ev.inputType`, with `ev.data` where it is read. -/
inductive InputType where
  | insertText (data : List UInt16)
  | insertParagraph
  | deleteContentBackward
  | deleteContentForward
  | formatBold
  | formatItalic
  | insertFromPaste
  | insertLineBreak
  | other

inductive Key where
  | enter (shift : Bool)
  | slash
  | arrowUp
  | arrowDown
  | other

inductive Call where
  | onEnter
  | onSlash
  | onArrowUp
  | onArrowDown
  | onBackspaceAtEmpty
  | onBackspaceAtStart
  deriving DecidableEq, Repr

def Call.ofBackspace : BackspaceCall → Call
  | .onBackspaceAtEmpty => .onBackspaceAtEmpty
  | .onBackspaceAtStart => .onBackspaceAtStart

structure Handled where
  yText : YText
  caret : Option ℕ
  call : Option Call := none

def deleteContentForward (selStart selEnd : ℕ) (yText : YText) : YText :=
  if selStart < selEnd then delete selStart (selEnd-selStart) yText
  else if selStart < yText.length then delete selStart 1 yText
  else yText

def newline : UInt16 := 10

def deleteBackward (selStart selEnd : ℕ) (yText : YText) : Handled :=
  let (t,call) := deleteContentBackward selStart selEnd yText
  if selStart < selEnd then ⟨t,some selStart,none⟩
  else if selStart = 0 then ⟨t,none,call.map Call.ofBackspace⟩
  else ⟨t,some (selStart-1),none⟩

/-- Where the event has no `nativeEvent` the handler throws before it has done anything. The
native listener passes the browser's events as they are, which have none. -/
def handleBeforeInput (currentFormat : List DeltaOp) (selStart selEnd : ℕ) (yText : YText) :
    Option InputType → Option Handled
  | none => none
  | some (.insertText data) =>
    some ⟨insertText selStart selEnd data yText,some (selStart+data.length),none⟩
  | some .insertParagraph => some ⟨yText,none,some .onEnter⟩
  | some .deleteContentBackward => some (deleteBackward selStart selEnd yText)
  | some .deleteContentForward =>
    some ⟨deleteContentForward selStart selEnd yText,some selStart,none⟩
  | some .formatBold =>
    some ⟨toggleMarkRange currentFormat selStart selEnd "bold" yText,some selEnd,none⟩
  | some .formatItalic =>
    some ⟨toggleMarkRange currentFormat selStart selEnd "italic" yText,some selEnd,none⟩
  | some .insertFromPaste => some ⟨yText,none,none⟩
  | some .insertLineBreak =>
    some ⟨insertText selStart selEnd [newline] yText,some (selStart+1),none⟩
  | some .other => some ⟨yText,none,none⟩

def handleKeyDown (offset : ℕ) (yText : YText) : Key → Option Call
  | .enter false => some .onEnter
  | .slash => if yText.length = 0 then some .onSlash else none
  | .arrowUp => if offset = 0 then some .onArrowUp else none
  | .arrowDown => if offset = yText.length then some .onArrowDown else none
  | _ => none

/-- Text that is not taken for markdown. -/
def handlePaste (selStart selEnd : ℕ) (text : List UInt16) (yText : YText) : Handled :=
  ⟨insertText selStart selEnd text yText,some (selStart+text.length),none⟩

/-- The browser has put the composed text in front of the caret by itself. -/
def onCompositionEnd (offset : ℕ) (composed : List UInt16) (yText : YText) : Handled :=
  let insertAt := offset-composed.length
  ⟨RichText.insert insertAt composed none yText,some (insertAt+composed.length),none⟩

/-- The handle of the toolbar, for a range that is not collapsed and stops at `offset`. -/
def toggleHandle (currentFormat : List DeltaOp) (selStart selEnd offset : ℕ) (mark : String)
    (yText : YText) : Handled :=
  ⟨toggleMark currentFormat selStart (selEnd-selStart) mark yText,some offset,none⟩

/-! ## Runs of a block -/

structure Editor where
  yText : YText
  root : List Dom
  selection : Selection

def caretAt (p : Point) : Selection := ⟨p,p⟩

def Editor.offset (e : Editor) : ℕ := getSelectionOffset e.root e.selection.stop

def Editor.selStart (e : Editor) : ℕ := (selectionOffsets e.root e.selection).1

def Editor.selEnd (e : Editor) : ℕ := (selectionOffsets e.root e.selection).2

/-- What happens to a block. `native` is an edit that the browser makes by itself and that an
`input` event reports, `remote` an update of another user. -/
inductive Event where
  | beforeInput (nativeEvent : Option InputType)
  | paste (text : List UInt16)
  | compose (composed : List UInt16)
  | toggle (mark : String)
  | remote (yText : YText)
  | native (root : List Dom) (sel : Selection)
  | keyDown (key : Key)
  | select (sel : Selection)
  | focus (side : Where)

def rendering (currentFormat : List DeltaOp) (e : Editor) : Event → Option Handled
  | .beforeInput nativeEvent =>
    handleBeforeInput currentFormat e.selStart e.selEnd e.yText nativeEvent
  | .paste text => some (handlePaste e.selStart e.selEnd text e.yText)
  | .compose composed => some (onCompositionEnd (e.selStart+composed.length) composed e.yText)
  | .toggle mark =>
    if e.selection.start = e.selection.stop then none
    else some (toggleHandle currentFormat e.selStart e.selEnd e.offset mark e.yText)
  | _ => none

def settling (e : Editor) : Event → Option (Editor × Option Call)
  | .beforeInput none => some (e,none)
  | .native root sel =>
    let dom := textContent root
    let caret := setSelectionOffset root (min (getSelectionOffset root sel.stop) dom.length)
    some (⟨reconcileFromDom false root e.yText,root,
      if dom = string e.yText then sel else caretAt caret⟩,none)
  | .keyDown key => some (e,handleKeyDown e.offset e.yText key)
  | .select sel => some ({ e with selection := sel },none)
  | .focus side => some ({ e with selection := caretAt (placeCaret e.root side) },none)
  | .toggle _ => if e.selection.start = e.selection.stop then some (e,none) else none
  | _ => none

section Runs

variable (toText : Option Json → String)

/-- One event. How `toDelta` cuts a text into runs does not matter. -/
inductive Step (e : Editor) : Event → Option Call → Editor → Prop where
  | shown {event : Event} {currentFormat : List DeltaOp} {h : Handled} {caret : ℕ}
      {root : List Dom} (hformat : DeltaOf currentFormat e.yText)
      (hhandled : rendering currentFormat e event = some h) (hcaret : h.caret = some caret)
      (hroot : Rendered toText root h.yText) :
      Step e event h.call ⟨h.yText,root,caretAt (setSelectionOffset root caret)⟩
  | kept {event : Event} {currentFormat : List DeltaOp} {h : Handled}
      (hformat : DeltaOf currentFormat e.yText)
      (hhandled : rendering currentFormat e event = some h) (hcaret : h.caret = none) :
      Step e event h.call { e with yText := h.yText }
  | remote {yText : YText} {root : List Dom} (hroot : Rendered toText root yText) :
      Step e (.remote yText) none
        ⟨yText,root,caretAt (setSelectionOffset root (min e.offset (contentLength root)))⟩
  | settled {event : Event} {next : Editor} {call : Option Call}
      (hsettled : settling e event = some (next,call)) : Step e event call next

/-- Each event with the block it came to, and the callbacks in their order. -/
inductive Run : Editor → List (Editor × Event) → List Call → Editor → Prop where
  | nil (e : Editor) : Run e [] [] e
  | cons {e mid last : Editor} {event : Event} {events : List (Editor × Event)}
      {call : Option Call} {calls : List Call} (hstep : Step toText e event call mid)
      (hrun : Run mid events calls last) : Run e ((e,event)::events) (call.toList++calls) last

end Runs

/-! ## A string with a selection -/

structure Buffer where
  text : List UInt16
  start : ℕ
  stop : ℕ
  ordered : start ≤ stop
  inside : stop ≤ text.length

namespace Buffer

variable (b : Buffer)

def replace (s : List UInt16) : Buffer where
  text := b.text.take b.start++s++b.text.drop b.stop
  start := b.start+s.length
  stop := b.start+s.length
  ordered := Nat.le_refl _
  inside := by
    have := b.ordered
    have := b.inside
    simp only [List.length_append,List.length_take,List.length_drop]
    omega

def back : Buffer where
  text := b.text.take (b.start-1)++b.text.drop b.start
  start := b.start-1
  stop := b.start-1
  ordered := Nat.le_refl _
  inside := by
    have := b.ordered
    have := b.inside
    simp only [List.length_append,List.length_take,List.length_drop]
    omega

def forward : Buffer where
  text := b.text.take b.start++b.text.drop (b.start+1)
  start := b.start
  stop := b.start
  ordered := Nat.le_refl _
  inside := by
    have := b.ordered
    have := b.inside
    simp only [List.length_append,List.length_take,List.length_drop]
    omega

def compose (s : List UInt16) : Buffer where
  text := b.text.take b.start++s++b.text.drop b.start
  start := b.start+s.length
  stop := b.start+s.length
  ordered := Nat.le_refl _
  inside := by
    have := b.ordered
    have := b.inside
    simp only [List.length_append,List.length_take,List.length_drop]
    omega

def caret (text : List UInt16) (offset : ℕ) : Buffer where
  text := text
  start := min offset text.length
  stop := min offset text.length
  ordered := Nat.le_refl _
  inside := Nat.min_le_right _ _

def selected (text : List UInt16) (i j : ℕ) : Buffer where
  text := text
  start := min i (min j text.length)
  stop := min j text.length
  ordered := Nat.min_le_right _ _
  inside := Nat.min_le_right _ _

end Buffer

inductive Command where
  | write (s : List UInt16)
  | enter
  | backspace
  | delete
  | format
  | compose (s : List UInt16)
  | receive (text : List UInt16)
  | edit (text : List UInt16) (start stop : ℕ)
  | press (key : Key)
  | select (start stop : ℕ)
  | focus (side : Where)
  | pass

namespace Buffer

def pressed (b : Buffer) : Key → Option Call
  | .enter false => some .onEnter
  | .slash => if b.text = [] then some .onSlash else none
  | .arrowUp => if b.stop = 0 then some .onArrowUp else none
  | .arrowDown => if b.stop = b.text.length then some .onArrowDown else none
  | _ => none

def step (b : Buffer) : Command → Buffer × Option Call
  | .write s => (b.replace s,none)
  | .enter => (b,some .onEnter)
  | .backspace =>
    if b.start < b.stop then (b.replace [],none)
    else if b.start = 0 then
      (b,some (if b.text = [] then .onBackspaceAtEmpty else .onBackspaceAtStart))
    else (b.back,none)
  | .delete => if b.start < b.stop then (b.replace [],none) else (b.forward,none)
  | .format => (caret b.text b.stop,none)
  | .compose s => (b.compose s,none)
  | .receive text => (caret text b.stop,none)
  | .edit text start stop =>
    (if text = b.text then selected text start stop else caret text stop,none)
  | .press key => (b,b.pressed key)
  | .select start stop => (selected b.text start stop,none)
  | .focus .start => (caret b.text 0,none)
  | .focus .stop => (caret b.text b.text.length,none)
  | .pass => (b,none)

def run (b : Buffer) : List Command → Buffer × List Call
  | [] => (b,[])
  | c::cs =>
    let (mid,call) := b.step c
    let (last,calls) := mid.run cs
    (last,call.toList++calls)

end Buffer

/-! ## Texts without embeds -/

def Plain (t : YText) : Prop := ∀ u ∈ t, (charOf u).isSome = true

section Events

variable {e : Editor} {b : Buffer} {t : YText} {f : List DeltaOp}

end Events

def blank : Editor := ⟨[],[.element "br" [] []],caretAt ⟨[],0⟩⟩

def lettered : Editor := ⟨[(.char 98,none)],[.text [98]],caretAt ⟨[0],1⟩⟩

/-- No event of a browser reaches the switch with one of the types it knows. -/
def Delivered : Event → Prop
  | .beforeInput (some type) => type = .other
  | _ => True

/-- In the mounted component a letter arrives by the edit that the browser makes of it: the
buffer after the edit is the one with the letter in place of the selection. -/
theorem edit_shown (b next : Buffer) (hcaret : next.start = next.stop) :
    b.step (.edit next.text next.start next.stop) = (next,none) := by
  obtain ⟨text,start,stop,hordered,hinside⟩ := next
  obtain rfl : start = stop := hcaret
  have hmin : min start text.length = start := Nat.min_eq_left hinside
  simp only [Buffer.step,Buffer.caret,Buffer.selected,hmin,Nat.min_self]
  split <;> rfl

def backspaced : Option Call → Bool
  | some .onBackspaceAtEmpty => true
  | some .onBackspaceAtStart => true
  | _ => false

theorem rendering_call {f : List DeltaOp} {e : Editor} {event : Event} {h : Handled}
    (hevent : Delivered event) (hhandled : rendering f e event = some h) :
    backspaced h.call = false := by
  cases event with
  | beforeInput nativeEvent =>
    cases nativeEvent with
    | none => cases hhandled
    | some type =>
      cases hevent
      cases hhandled
      rfl
  | toggle mark =>
    rw [rendering] at hhandled
    split at hhandled
    · cases hhandled
    · cases hhandled
      rfl
  | paste text =>
    cases hhandled
    rfl
  | compose composed =>
    cases hhandled
    rfl
  | _ => cases hhandled

theorem key_unbackspaced (offset : ℕ) (yText : YText) (key : Key) :
    backspaced (handleKeyDown offset yText key) = false := by
  cases key with
  | enter shift => cases shift <;> rfl
  | other => rfl
  | _ =>
    rw [handleKeyDown]
    split <;> rfl

theorem delivered_call {toText : Option Json → String} {e next : Editor} {event : Event}
    {call : Option Call} (hevent : Delivered event) (hstep : Step toText e event call next) :
    backspaced call = false := by
  cases hstep with
  | shown _ hhandled _ _ => exact rendering_call hevent hhandled
  | kept _ hhandled _ => exact rendering_call hevent hhandled
  | remote _ => rfl
  | settled hsettled =>
    cases event with
    | keyDown key =>
      cases hsettled
      exact key_unbackspaced _ _ key
    | beforeInput nativeEvent =>
      cases nativeEvent <;> cases hsettled
      rfl
    | toggle mark =>
      rw [settling] at hsettled
      split at hsettled <;> cases hsettled
      rfl
    | native root sel =>
      cases hsettled
      rfl
    | select sel =>
      cases hsettled
      rfl
    | focus side =>
      cases hsettled
      rfl
    | _ => cases hsettled

/-- A backspace never reaches the editor. -/
theorem never_backspaced {toText : Option Json → String} {e last : Editor}
    {events : List (Editor × Event)} {calls : List Call} (hrun : Run toText e events calls last)
    (hevents : ∀ p ∈ events, Delivered p.2) : ∀ c ∈ calls, backspaced (some c) = false := by
  induction hrun with
  | nil e => exact fun c hc => absurd hc List.not_mem_nil
  | cons hstep _ ih =>
    intro c hc
    rcases List.mem_append.mp hc with hc | hc
    · have hcall := delivered_call (hevents _ List.mem_cons_self) hstep
      rwa [Option.mem_toList.mp hc] at hcall
    · exact ih (fun p hp => hevents p (List.mem_cons_of_mem _ hp)) c hc

end BlockDocs.TypedText
