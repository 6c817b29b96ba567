import BlockDocs.InlineText

/-!
# Toggling a mark

The editor reads the runs of the text to decide whether a range has a mark throughout, and
writes or removes the mark for the whole range. How the runs are cut does not matter: the
decision is about the units of the range.
-/

set_option autoImplicit false

namespace BlockDocs.MarkToggle
open BlockDocs.InsertionMap BlockDocs.Wire
open BlockDocs.RichText BlockDocs.InlineText

inductive Insert where
  | text (s : List UInt16)
  | embed (value : Json)

structure DeltaOp where
  insert : Insert
  attributes : Option JsonObj := none

def DeltaOp.size (op : DeltaOp) : ℕ :=
  match op.insert with
  | .text s => s.length
  | .embed _ => 1

def DeltaOp.units (op : DeltaOp) : YText :=
  match op.insert with
  | .text s => chars s op.attributes
  | .embed value => [(.embed value,op.attributes)]

def valueOf (key : String) (attributes : Option JsonObj) : Option Json :=
  attributes.bind (lookup key)

def hasMark (mark : String) (attributes : Option JsonObj) : Bool :=
  match valueOf mark attributes with
  | some (.bool true) => true
  | _ => false

def allHave (mark : String) (start stop : ℕ) : ℕ → List DeltaOp → Bool
  | _, [] => true
  | pos, op::ops =>
    let overlap : ℤ := min (pos+op.size) stop-max pos start
    if overlap > 0 ∧ ¬hasMark mark op.attributes then false
    else allHave mark start stop (pos+op.size) ops

/-- One attribute is set, or removed where the value is `null`. -/
def setAttribute (key : String) (value : Json) (attributes : Option JsonObj) : Option JsonObj :=
  match value with
  | .null =>
    let rest := erase key (attributes.getD [])
    if rest.isEmpty then none else some rest
  | value => some (put key value (attributes.getD []))

def formatMark (start length : ℕ) (mark : String) (value : Json) (yText : YText) : YText :=
  format start length (setAttribute mark value) yText

def toggleMarkRange (currentFormat : List DeltaOp) (start stop : ℕ) (mark : String)
    (yText : YText) : YText :=
  if stop ≤ start then yText
  else
    let fmtVal : Json := if allHave mark start stop 0 currentFormat then .null else .bool true
    formatMark start (stop-start) mark fmtVal yText

/-- The handle of the block, for `len` units of the selection from `s` on. -/
def toggleMark (currentFormat : List DeltaOp) (s len : ℕ) (mark : String)
    (yText : YText) : YText :=
  let fmtVal : Json := if allHave mark s (s+len) 0 currentFormat then .null else .bool true
  formatMark s len mark fmtVal yText

/-! ## What a text holds -/

def attributeAt (key : String) (t : YText) (i : ℕ) : Option Json :=
  t[i]?.bind fun u => valueOf key u.2

def Marked (mark : String) (t : YText) (i : ℕ) : Prop :=
  attributeAt mark t i = some (.bool true)

def Throughout (mark : String) (start stop : ℕ) (t : YText) : Prop :=
  ∀ i, start ≤ i → i < stop → Marked mark t i

structure SameState (t u : YText) : Prop where
  contents : t.map Prod.fst = u.map Prod.fst
  attributes : ∀ key i, attributeAt key t i = attributeAt key u i

def DeltaOf (ops : List DeltaOp) (t : YText) : Prop := SameState (ops.flatMap DeltaOp.units) t

/-- The mark is turned over for the range as a whole, and nothing else changes. -/
structure Flipped (mark : String) (start stop : ℕ) (t t' : YText) : Prop where
  contents : t'.map Prod.fst = t.map Prod.fst
  cleared : Throughout mark start stop t →
    ∀ i, start ≤ i → i < stop → attributeAt mark t' i = none
  set : ¬Throughout mark start stop t → Throughout mark start stop t'
  others : ∀ key i, key ≠ mark → attributeAt key t' i = attributeAt key t i
  outside : ∀ i, ¬(start ≤ i ∧ i < stop) → t'[i]? = t[i]?

variable {mark key : String} {start stop pos i : ℕ} {t u : YText} {ops : List DeltaOp}

theorem hasMark_iff {attributes : Option JsonObj} :
    hasMark mark attributes = true ↔ valueOf mark attributes = some (.bool true) := by
  unfold hasMark
  split
  · next h => exact iff_of_true rfl h
  · next hnot => exact iff_of_false Bool.false_ne_true hnot

/-! ## The decision -/

theorem units_length (op : DeltaOp) : op.units.length = op.size := by
  unfold DeltaOp.units DeltaOp.size
  split
  · exact List.length_map _
  · rfl

theorem units_attributes (op : DeltaOp) : ∀ u ∈ op.units, u.2 = op.attributes := by
  intro u hu
  unfold DeltaOp.units at hu
  split at hu
  · obtain ⟨_,_,rfl⟩ := List.mem_map.mp hu
    rfl
  · rw [List.mem_singleton.mp hu]

theorem attributeAt_unit {op : DeltaOp} (hi : i < op.size) :
    attributeAt key op.units i = valueOf key op.attributes := by
  rw [← units_length] at hi
  rw [attributeAt,List.getElem?_eq_getElem hi,Option.bind_some,
    units_attributes op _ (List.getElem_mem hi)]

theorem attributeAt_left (hi : i < t.length) :
    attributeAt key (t++u) i = attributeAt key t i := by
  rw [attributeAt,List.getElem?_append_left hi]
  rfl

theorem attributeAt_right (i : ℕ) :
    attributeAt key (t++u) (t.length+i) = attributeAt key u i := by
  rw [attributeAt,List.getElem?_append_right (Nat.le_add_right _ _),Nat.add_sub_cancel_left]
  rfl

/-- The overlap is positive just where a unit of the entry lies in the range. -/
theorem overlap_pos {size : ℕ} : ((min (pos+size) stop : ℕ) : ℤ)-(max pos start : ℕ) > 0 ↔
    ∃ k, k < size ∧ start ≤ pos+k ∧ pos+k < stop := by
  constructor
  · intro h
    exact ⟨max pos start-pos,by omega,by omega,by omega⟩
  · rintro ⟨k,hk,h1,h2⟩
    omega

/-- The loop from offset `pos` on says whether the units in the range have the mark. -/
theorem allHave_iff (ops : List DeltaOp) (pos : ℕ) :
    allHave mark start stop pos ops = true ↔
      ∀ i < (ops.flatMap DeltaOp.units).length, start ≤ pos+i → pos+i < stop →
        Marked mark (ops.flatMap DeltaOp.units) i := by
  induction ops generalizing pos with
  | nil => simp [allHave]
  | cons op ops ih =>
    have hlength := units_length op
    have hhere : ∀ k < op.size, Marked mark (op.units++ops.flatMap DeltaOp.units) k ↔
        hasMark mark op.attributes = true := by
      intro k hk
      rw [Marked,attributeAt_left (by omega),attributeAt_unit hk,hasMark_iff]
    rw [List.flatMap_cons,List.length_append]
    simp only [allHave,overlap_pos]
    split
    · next h =>
      obtain ⟨⟨k,hk,h1,h2⟩,hnot⟩ := h
      refine iff_of_false Bool.false_ne_true fun hall => hnot ?_
      exact (hhere k hk).mp (hall k (by omega) h1 h2)
    · next h =>
      rw [ih]
      constructor
      · intro hrest i hi h1 h2
        by_cases hin : i < op.size
        · apply (hhere i hin).mpr
          by_contra hnot
          exact h ⟨⟨i,hin,h1,h2⟩,hnot⟩
        · obtain ⟨j,rfl⟩ : ∃ j, i = op.units.length+j := ⟨i-op.units.length,by omega⟩
          rw [Marked,attributeAt_right]
          exact hrest j (by omega) (by omega) (by omega)
      · intro hall j hj h1 h2
        have hmarked := hall (op.units.length+j) (by omega) (by omega) (by omega)
        rwa [Marked,attributeAt_right] at hmarked

theorem allHave_of_delta (hops : DeltaOf ops t) (hstop : stop ≤ t.length) :
    allHave mark start stop 0 ops = true ↔ Throughout mark start stop t := by
  have hlength := congrArg List.length hops.contents
  rw [List.length_map,List.length_map] at hlength
  rw [allHave_iff,hlength]
  simp only [Marked,hops.attributes,Nat.zero_add]
  constructor
  · intro h i h1 h2
    exact h i (by omega) h1 h2
  · intro h i _ h1 h2
    exact h i h1 h2

/-! ## One attribute -/

theorem valueOf_getD (attributes : Option JsonObj) :
    valueOf key attributes = lookup key (attributes.getD []) := by
  cases attributes with
  | none => rfl
  | some es => rfl

theorem valueOf_removed (attributes : Option JsonObj) :
    valueOf key (setAttribute mark .null attributes) =
      if key = mark then none else valueOf key attributes := by
  rw [valueOf_getD attributes,← lookup_erase,setAttribute]
  split
  · next h =>
    rw [List.isEmpty_iff.mp h]
    rfl
  · rfl

theorem valueOf_set (attributes : Option JsonObj) :
    valueOf key (setAttribute mark (.bool true) attributes) =
      if key = mark then some (.bool true) else valueOf key attributes := by
  rw [valueOf_getD attributes,← lookup_put]
  rfl

theorem attributeAt_inside {value : Json} {length : ℕ} (h : start ≤ i ∧ i < start+length)
    (hi : i < t.length) : attributeAt key (formatMark start length mark value t) i =
      valueOf key (setAttribute mark value (t[i]).2) := by
  rw [attributeAt,formatMark,format_inside _ _ h,List.getElem?_eq_getElem hi]
  rfl

theorem attributeAt_get (hi : i < t.length) : attributeAt key t i = valueOf key (t[i]).2 := by
  rw [attributeAt,List.getElem?_eq_getElem hi]
  rfl

theorem attributeAt_outside {value : Json} {length : ℕ} (h : ¬(start ≤ i ∧ i < start+length)) :
    attributeAt key (formatMark start length mark value t) i = attributeAt key t i := by
  rw [attributeAt,formatMark,format_outside _ _ h]
  rfl

/-! ## The toggle -/

theorem toggleMarkRange_eq (h : start < stop) : toggleMarkRange ops start stop mark t =
    formatMark start (stop-start) mark
      (if allHave mark start stop 0 ops then .null else .bool true) t :=
  if_neg (by omega)

/-- The handle of the block does the same for a selection that is not empty. -/
theorem toggleMark_eq {s len : ℕ} (h : 0 < len) :
    toggleMark ops s len mark t = toggleMarkRange ops s (s+len) mark t := by
  rw [toggleMarkRange_eq (by omega),Nat.add_sub_cancel_left]
  rfl

theorem toggle_flips (hops : DeltaOf ops t) (hstart : start < stop) (hstop : stop ≤ t.length) :
    Flipped mark start stop t (toggleMarkRange ops start stop mark t) := by
  have hdecide : allHave mark start stop 0 ops = true ↔ Throughout mark start stop t :=
    allHave_of_delta hops hstop
  have hrange : ∀ i, (start ≤ i ∧ i < start+(stop-start)) ↔ (start ≤ i ∧ i < stop) := by
    intro i
    omega
  rw [toggleMarkRange_eq hstart]
  refine ⟨format_contents _ _ _ _,?_,?_,?_,?_⟩
  · intro hall i h1 h2
    rw [if_pos (hdecide.mpr hall),attributeAt_inside ((hrange i).mpr ⟨h1,h2⟩) (by omega),
      valueOf_removed,if_pos rfl]
  · intro hnot i h1 h2
    rw [if_neg (mt hdecide.mp hnot),Marked,
      attributeAt_inside ((hrange i).mpr ⟨h1,h2⟩) (by omega),valueOf_set,if_pos rfl]
  · intro key i hkey
    by_cases hin : start ≤ i ∧ i < stop
    · rw [attributeAt_inside ((hrange i).mpr hin) (by omega),attributeAt_get (by omega)]
      split
      · rw [valueOf_removed,if_neg hkey]
      · rw [valueOf_set,if_neg hkey]
    · exact attributeAt_outside (mt (hrange i).mp hin)
  · intro i hin
    exact format_outside _ _ (mt (hrange i).mp hin)

theorem flipped_length (h : Flipped mark start stop t u) : u.length = t.length := by
  have hlength := congrArg List.length h.contents
  rwa [List.length_map,List.length_map] at hlength

theorem flipped_outside (h : Flipped mark start stop t u) (hi : ¬(start ≤ i ∧ i < stop)) :
    attributeAt key u i = attributeAt key t i := by
  rw [attributeAt,h.outside i hi]
  rfl

/-- A range that lacks the mark has a unit that lacks it. -/
theorem not_throughout (hstart : start < stop)
    (h : ∀ i, start ≤ i → i < stop → attributeAt mark t i = none) :
    ¬Throughout mark start stop t := by
  intro hall
  have hmarked := hall start (le_refl _) hstart
  rw [Marked,h start (le_refl _) hstart] at hmarked
  cases hmarked

/-- Two more flips undo each other. -/
theorem flipped_thrice {t₁ t₂ t₃ : YText} (hstart : start < stop)
    (h₁ : Flipped mark start stop t t₁) (h₂ : Flipped mark start stop t₁ t₂)
    (h₃ : Flipped mark start stop t₂ t₃) : SameState t₃ t₁ where
  contents := h₃.contents.trans h₂.contents
  attributes := by
    intro key i
    by_cases hin : start ≤ i ∧ i < stop
    · by_cases hkey : key = mark
      · subst hkey
        by_cases hall : Throughout key start stop t
        · have hlack := h₁.cleared hall
          have hset := h₂.set (not_throughout hstart hlack)
          rw [h₃.cleared hset i hin.1 hin.2,hlack i hin.1 hin.2]
        · have hset := h₁.set hall
          have hlack := h₂.cleared hset
          exact (h₃.set (not_throughout hstart hlack) i hin.1 hin.2).trans
            (hset i hin.1 hin.2).symm
      · rw [h₃.others key i hkey,h₂.others key i hkey]
    · rw [flipped_outside h₃ hin,flipped_outside h₂ hin]

/-- A toggle flips the mark for the range, and toggling twice more gives the state after the
first toggle, however the runs of the text are cut each time. -/
theorem toggleMarkRange_flips {ops ops₁ ops₂ : List DeltaOp} {t t₁ t₂ : YText}
    (hstart : start < stop) (hstop : stop ≤ t.length) (hops : DeltaOf ops t)
    (ht₁ : t₁ = toggleMarkRange ops start stop mark t) (hops₁ : DeltaOf ops₁ t₁)
    (ht₂ : t₂ = toggleMarkRange ops₁ start stop mark t₁) (hops₂ : DeltaOf ops₂ t₂) :
    Flipped mark start stop t t₁ ∧
      SameState (toggleMarkRange ops₂ start stop mark t₂) t₁ := by
  have h₁ : Flipped mark start stop t t₁ := ht₁ ▸ toggle_flips hops hstart hstop
  have hstop₁ : stop ≤ t₁.length := by rw [flipped_length h₁]; exact hstop
  have h₂ : Flipped mark start stop t₁ t₂ := ht₂ ▸ toggle_flips hops₁ hstart hstop₁
  have hstop₂ : stop ≤ t₂.length := by rw [flipped_length h₂]; exact hstop₁
  exact ⟨h₁,flipped_thrice hstart h₁ h₂ (toggle_flips hops₂ hstart hstop₂)⟩

def boldText (s : List UInt16) : DeltaOp := ⟨.text s,some [("bold",.bool true)]⟩

def plainText (s : List UInt16) : DeltaOp := ⟨.text s,none⟩

/-- Of two letters the second is bold; then both are, then none, then both again. -/
theorem toggleMarkRange_flips_half :
    Flipped "bold" 0 2 ([plainText [97],boldText [98]].flatMap DeltaOp.units)
        (boldText [97,98]).units ∧
      SameState (toggleMarkRange [plainText [97,98]] 0 2 "bold" (plainText [97,98]).units)
        (boldText [97,98]).units :=
  toggleMarkRange_flips (by decide) (by decide)
    (show DeltaOf [plainText [97],boldText [98]] _ from ⟨rfl,fun _ _ => rfl⟩) rfl
    (show DeltaOf [boldText [97],boldText [98]] _ from ⟨rfl,fun _ _ => rfl⟩) rfl
    (show DeltaOf [plainText [97,98]] _ from ⟨rfl,fun _ _ => rfl⟩)

end BlockDocs.MarkToggle
