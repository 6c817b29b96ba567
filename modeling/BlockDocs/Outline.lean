import BlockDocs.LeafEdits
import BlockDocs.StableOrder

/-!
# An outline

Ordered children under each node, one node that has the focus, and a menu that may be open
at a node. Lines are the nodes in the order of the walk. What others do may move one node,
or put the children of a node that goes among their new siblings; where they come to stand
is not said, but the order of all other nodes stays.
-/

set_option autoImplicit false

namespace BlockDocs.Outline
open BlockDocs.ParentChain BlockDocs.ForestWalk BlockDocs.PreOrder BlockDocs.LeafEdits
open BlockDocs.StableOrder

structure Sheet (α : Type*) where
  under : Option α → List α
  focus : Option α
  menu : Option α
  requested : List α

/-- `split` puts a new line below a line, `pick` below the line of the menu. -/
inductive Command (α : Type*) where
  | start (x : α)
  | split (i : ℕ) (x : α)
  | remove (i : ℕ)
  | up (i : ℕ)
  | down (i : ℕ)
  | openMenu (i : ℕ)
  | closeMenu
  | pick (x : α)
  | paste (i : ℕ) (xs : List α) (replace : Bool)
  | focus (i : ℕ)
  | frame
  | moved (x : α)
  | dissolved (x : α)

variable {α : Type*} [DecidableEq α]

def Shifted (x : α) (before later : Option α → List α) : Prop :=
  ∀ p, (later p).filter (· ≠ x) = (before p).filter (· ≠ x)

/-- The node goes, and its children come under another parent. -/
structure Dissolved (x : α) (o : Option α) (before later : Option α → List α) : Prop where
  gone : later (some x) = []
  merged : Interleaved (later o) ((before o).filter (· ≠ x)) (before (some x))
  others : ∀ p, p ≠ o → p ≠ some x → later p = (before p).filter (· ≠ x)

theorem dissolved_leaf {x : α} {o : Option α} {before later : Option α → List α}
    (h : Dissolved x o before later) (hleaf : before (some x) = []) (p : Option α) :
    later p = (before p).filter (· ≠ x) := by
  by_cases ho : p = o
  · subst ho
    have hperm := h.merged.perm
    rw [hleaf,List.append_nil] at hperm
    exact (h.merged.left.eq_of_length hperm.length_eq.symm).symm
  · by_cases hx : p = some x
    · rw [hx,h.gone,hleaf]
      rfl
    · exact h.others p ho hx

def insertRun : α → List α → List α → List α
  | _, [], l => l
  | a, x::xs, l => insertRun x xs (insertBehind x (some a) l)

namespace Sheet

omit [DecidableEq α] in
def Lines (s : Sheet α) (ls : List α) : Prop := ∃ fuel, walkAll some s.under fuel = some ls

omit [DecidableEq α] in
theorem lines_unique {s : Sheet α} {ls rs : List α} (h : s.Lines ls) (h' : s.Lines rs) :
    ls = rs := by
  obtain ⟨fuel,hls⟩ := h
  obtain ⟨more,hrs⟩ := h'
  have hsame := (walkAll_more (le_max_left fuel more) hls).symm.trans
    (walkAll_more (le_max_right fuel more) hrs)
  exact Option.some.inj hsame

def grown (s : Sheet α) (p anchor : Option α) (x : α) : Sheet α :=
  { s with
    under := Function.update s.under p (insertBehind x anchor (s.under p))
    requested := s.requested++[x] }

def pasted (s : Sheet α) (p : Option α) (a : α) (xs : List α) : Sheet α :=
  { s with
    under := Function.update s.under p (insertRun a xs (s.under p))
    requested := s.requested++xs.head?.toList }

omit [DecidableEq α] in
def focusOn (s : Sheet α) (line : Option α) : Sheet α := { s with focus := line.or s.focus }

end Sheet

def above (ls : List α) (i : ℕ) : Option α := if i = 0 then none else ls[i-1]?

inductive Turn (s : Sheet α) : Command α → Sheet α → Prop where
  | start {x : α} (h : s.Lines []) : Turn s (.start x) (s.grown none none x)
  | split {i : ℕ} {x a : α} {p : Option α} {ls : List α} (h : s.Lines ls)
      (ha : ls[i]? = some a) (hp : a ∈ s.under p) : Turn s (.split i x) (s.grown p (some a) x)
  | remove {i : ℕ} {a : α} {p : Option α} {ls : List α} {later : Option α → List α}
      (h : s.Lines ls) (ha : ls[i]? = some a) (hp : a ∈ s.under p)
      (hlater : Dissolved a p s.under later) :
      Turn s (.remove i) ({ s with under := later }.focusOn (above ls i))
  | up {i : ℕ} {ls : List α} (h : s.Lines ls) (hi : i < ls.length) :
      Turn s (.up i) (s.focusOn (above ls i))
  | down {i : ℕ} {ls : List α} (h : s.Lines ls) (hi : i < ls.length) :
      Turn s (.down i) (s.focusOn ls[i+1]?)
  | openMenu {i : ℕ} {a : α} {ls : List α} (h : s.Lines ls) (ha : ls[i]? = some a) :
      Turn s (.openMenu i) { s with menu := some a }
  | closeMenu : Turn s .closeMenu { s with menu := none }
  | pick {x a : α} (h : s.menu = some a) :
      Turn s (.pick x) { s.grown none (some a) x with menu := none }
  | noMenu {x : α} (h : s.menu = none) : Turn s (.pick x) s
  | paste {i : ℕ} {xs ls : List α} {a : α} {p : Option α} (h : s.Lines ls)
      (ha : ls[i]? = some a) (hp : a ∈ s.under p) :
      Turn s (.paste i xs false) (s.pasted p a xs)
  | replace {i : ℕ} {xs ls : List α} {a : α} {p : Option α} {later : Option α → List α}
      (h : s.Lines ls) (ha : ls[i]? = some a) (hp : a ∈ s.under p)
      (hlater : Dissolved a p (s.pasted p a xs).under later) :
      Turn s (.paste i xs true) { s.pasted p a xs with under := later }
  | focus {i : ℕ} {a : α} {ls : List α} (h : s.Lines ls) (ha : ls[i]? = some a) :
      Turn s (.focus i) (s.focusOn (some a))
  | frame : Turn s .frame { s.focusOn s.requested.getLast? with requested := [] }
  | moved {x : α} {later : Option α → List α} (h : Shifted x s.under later) :
      Turn s (.moved x) { s with under := later }
  | dissolved {x : α} {later : Option α → List α} (h : Dissolved x none s.under later) :
      Turn s (.dissolved x) { s with under := later }

inductive Turns : Sheet α → List (Command α) → Sheet α → Prop where
  | nil (s : Sheet α) : Turns s [] s
  | cons {s t u : Sheet α} {c : Command α} {cs : List (Command α)} (h : Turn s c t)
      (hrest : Turns t cs u) : Turns s (c::cs) u

theorem turns_one {s t : Sheet α} {c : Command α} (h : Turn s c t) : Turns s [c] t :=
  .cons h (.nil t)

theorem turns_append {s t u : Sheet α} {cs ds : List (Command α)} (h : Turns s cs t)
    (h' : Turns t ds u) : Turns s (cs++ds) u := by
  induction h with
  | nil => exact h'
  | cons hone _ ih => exact .cons hone (ih h')

end BlockDocs.Outline
