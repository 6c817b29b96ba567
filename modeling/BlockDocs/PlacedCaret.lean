import BlockDocs.Rendering

/-!
# Placing the caret

The caret is put into the first text of the document that reaches up to an offset, or
behind all children of the root if there is none.
-/

set_option autoImplicit false

namespace BlockDocs.PlacedCaret
open BlockDocs.Rendering

mutual

/-- A place in this node, or what remains of the offset behind its texts. -/
def walkNode (remaining : ℕ) : Dom → Except ℕ Point
  | .text data =>
    if remaining ≤ data.length then .ok ⟨[],remaining⟩ else .error (remaining-data.length)
  | .element _ _ children => walkNodes remaining 0 children

def walkNodes (remaining k : ℕ) : List Dom → Except ℕ Point
  | [] => .error remaining
  | d::ds =>
    match walkNode remaining d with
    | .ok p => .ok ⟨k::p.path,p.offset⟩
    | .error rest => walkNodes rest (k+1) ds

end

def setSelectionOffset (root : List Dom) (offset : ℕ) : Point :=
  match walkNodes offset 0 root with
  | .ok p => p
  | .error _ => ⟨[],root.length⟩

inductive Where where
  | start
  | stop

def placeCaret (root : List Dom) : Where → Point
  | .start => ⟨[],0⟩
  | .stop => ⟨[],root.length⟩

def contentLength (root : List Dom) : ℕ := (textContent root).length

theorem textContent_append (ds es : List Dom) :
    textContent (ds++es) = textContent ds++textContent es := by
  induction ds with
  | nil => rfl
  | cons d ds ih => simp [textContent,ih]

/-- The text in front of a point of the node `d` among its siblings. -/
theorem textBefore_child (front : List Dom) (d : Dom) (rest : List Dom) (p : Point) :
    textBefore (front++d::rest) (front.length::p.path) p.offset =
      textContent front++textBefore [d] (0::p.path) p.offset := by
  cases d <;> simp [textBefore,textContent]

mutual

/-- The place has `remaining` characters in front of it in the node, which are all of the
node's if what remains is not zero. -/
theorem walkNode_spec (d : Dom) (remaining : ℕ) :
    match walkNode remaining d with
    | .ok p => (textBefore [d] (0::p.path) p.offset).length = remaining ∧
        remaining ≤ (domText d).length
    | .error rest => remaining = (domText d).length+rest := by
  cases d with
  | text data =>
    rw [walkNode]
    by_cases h : remaining ≤ data.length
    · simp [h,textBefore,textContent,domText]
    · simp only [h,if_false,domText]
      omega
  | element tag attributes children =>
    have hwalk := walkNodes_spec children [] remaining
    rw [List.length_nil] at hwalk
    rw [walkNode]
    cases hplace : walkNodes remaining 0 children with
    | ok p =>
      rw [hplace] at hwalk
      simpa [textBefore,textContent,domText] using hwalk
    | error rest =>
      rw [hplace] at hwalk
      exact hwalk

theorem walkNodes_spec (ds : List Dom) (front : List Dom) (remaining : ℕ) :
    match walkNodes remaining front.length ds with
    | .ok p => (textBefore (front++ds) p.path p.offset).length =
        (textContent front).length+remaining ∧ remaining ≤ (textContent ds).length
    | .error rest => remaining = (textContent ds).length+rest := by
  cases ds with
  | nil => simp [walkNodes,textContent]
  | cons d ds =>
    have hnode := walkNode_spec d remaining
    rw [walkNodes]
    cases hplace : walkNode remaining d with
    | ok p =>
      rw [hplace] at hnode
      simp only [textBefore_child,List.length_append,textContent]
      omega
    | error rest =>
      have hrest := walkNodes_spec ds (front++[d]) rest
      rw [hplace] at hnode
      simp only [List.length_append,List.length_singleton,List.append_assoc,List.singleton_append,
        textContent_append,textContent,List.append_nil] at hrest ⊢
      cases hplaces : walkNodes rest (front.length+1) ds with
      | ok p =>
        rw [hplaces] at hrest
        dsimp only at hrest hnode ⊢
        omega
      | error last =>
        rw [hplaces] at hrest
        dsimp only at hrest hnode ⊢
        omega

end

theorem placed_start (root : List Dom) :
    getSelectionOffset root (placeCaret root .start) = 0 := by
  simp [getSelectionOffset,placeCaret,textBefore,textContent]

end BlockDocs.PlacedCaret
