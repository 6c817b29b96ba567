import Mathlib.Data.List.Basic
import Mathlib.Tactic

/-!
# States with slices

Each event has a label. What an event does to the slice of its label, and what it puts
out, depends on that slice alone, and no other slice changes. A slice and the outputs of
its label are then those of a run of its own events, however they are interleaved.
-/

set_option autoImplicit false

namespace BlockDocs.Slices

variable {S L E O V : Type*} (step : S → L → E → S × Option O) (slice : L → S → V)

structure Sliced : Prop where
  reads : ∀ s t l e, slice l s = slice l t →
    slice l (step s l e).1 = slice l (step t l e).1 ∧ (step s l e).2 = (step t l e).2
  frames : ∀ s l m e, m ≠ l → slice m (step s l e).1 = slice m s

def run : S → List (L × E) → S × List (L × O)
  | s, [] => (s,[])
  | s, (l,e)::es =>
    let (t,o) := step s l e
    let (u,os) := run t es
    (u,o.toList.map (fun o => (l,o))++os)

variable {step slice}

theorem run_cons (s : S) (l : L) (e : E) (es : List (L × E)) : run step s ((l,e)::es) =
    ((run step (step s l e).1 es).1,
      (step s l e).2.toList.map (fun o => (l,o))++(run step (step s l e).1 es).2) := rfl

theorem run_append (s : S) (es fs : List (L × E)) : run step s (es++fs) =
    ((run step (run step s es).1 fs).1,
      (run step s es).2++(run step (run step s es).1 fs).2) := by
  induction es generalizing s with
  | nil => rfl
  | cons e es ih =>
    obtain ⟨l,e⟩ := e
    rw [List.cons_append,run_cons,run_cons,ih,List.append_assoc]

section Labels

variable [DecidableEq L] {l : L} {s t : S}

/-- The events of other labels can be left out. -/
theorem run_own (h : Sliced step slice) (es : List (L × E)) (hs : slice l s = slice l t) :
    slice l (run step s es).1 = slice l (run step t (es.filter (fun e => e.1 = l))).1 ∧
      (run step s es).2.filter (fun o => o.1 = l) =
        (run step t (es.filter (fun e => e.1 = l))).2 := by
  induction es generalizing s t with
  | nil => exact ⟨hs,rfl⟩
  | cons e es ih =>
    obtain ⟨m,e⟩ := e
    rw [run_cons]
    by_cases hm : m = l
    · subst hm
      obtain ⟨hslice,hout⟩ := h.reads s t m e hs
      obtain ⟨hlast,houts⟩ := ih hslice
      rw [List.filter_cons_of_pos (by simp),run_cons]
      refine ⟨hlast,?_⟩
      rw [List.filter_append,houts,hout]
      congr 1
      exact List.filter_eq_self.mpr (by simp)
    · have hother : slice l (step s m e).1 = slice l t :=
        (h.frames s m l e (fun heq => hm heq.symm)).trans hs
      obtain ⟨hlast,houts⟩ := ih hother
      rw [List.filter_cons_of_neg (by simpa using hm)]
      refine ⟨hlast,?_⟩
      rw [List.filter_append,houts,List.filter_eq_nil_iff.mpr (by simpa using fun _ _ => hm)]
      rfl

/-- Two runs with the same events of a label in the same order agree on its slice. -/
theorem run_slice (h : Sliced step slice) {es fs : List (L × E)}
    (hsame : es.filter (fun e => e.1 = l) = fs.filter (fun e => e.1 = l))
    (hs : slice l s = slice l t) : slice l (run step s es).1 = slice l (run step t fs).1 ∧
      (run step s es).2.filter (fun o => o.1 = l) =
        (run step t fs).2.filter (fun o => o.1 = l) := by
  have hes := run_own h es hs
  have hfs := run_own h fs (rfl : slice l t = slice l t)
  rw [hsame] at hes
  exact ⟨hes.1.trans hfs.1.symm,hes.2.trans hfs.2.symm⟩

end Labels

end BlockDocs.Slices
