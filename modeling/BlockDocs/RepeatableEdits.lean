import Mathlib.Data.List.Basic
import Mathlib.Tactic

/-!
# Edits that can be repeated

A family of edits of a value that is closed under composition and in which no edit
changes anything when it is made a second time. A list of such edits comes to one
edit of the family, so the list can be repeated as well.
-/

set_option autoImplicit false

namespace BlockDocs.RepeatableEdits

structure Edits (E S : Type*) where
  act : E → S → S
  keep : E
  seq : E → E → E
  act_keep : ∀ s, act keep s = s
  act_seq : ∀ d e s, act (seq d e) s = act e (act d s)
  act_twice : ∀ e s, act e (act e s) = act e s

variable {E S : Type*}

namespace Edits

def run (A : Edits E S) (es : List E) (s : S) : S := es.foldl (fun s e => A.act e s) s

def total (A : Edits E S) (es : List E) : E := es.foldl A.seq A.keep

theorem run_total (A : Edits E S) (es : List E) (s : S) : A.run es s = A.act (A.total es) s := by
  induction es using List.reverseRecOn with
  | nil => exact (A.act_keep s).symm
  | append_singleton es e ih =>
    have hrun : A.run (es++[e]) s = A.act e (A.run es s) := List.foldl_append
    have htotal : A.total (es++[e]) = A.seq (A.total es) e := List.foldl_append
    rw [hrun,htotal,A.act_seq,ih]

theorem run_twice (A : Edits E S) (es : List E) (s : S) : A.run es (A.run es s) = A.run es s := by
  rw [A.run_total es s,A.run_total,A.act_twice]

section Follows

variable {T O : Type*} {step : T → O → T} (view : T → S) (edit : O → E)

/-- A fold is seen through a view on which every step is an edit. -/
theorem view_foldl (A : Edits E S) (h : ∀ t o, view (step t o) = A.act (edit o) (view t))
    (os : List O) (t : T) : view (os.foldl step t) = A.run (os.map edit) (view t) := by
  induction os generalizing t with
  | nil => rfl
  | cons o os ih =>
    rw [List.foldl_cons,ih,h]
    rfl

theorem view_twice (A : Edits E S) (h : ∀ t o, view (step t o) = A.act (edit o) (view t))
    (os : List O) (t : T) : view (os.foldl step (os.foldl step t)) = view (os.foldl step t) := by
  rw [A.view_foldl view edit h os t,A.view_foldl view edit h,A.view_foldl view edit h,A.run_twice]

end Follows

end Edits

/-! ## Families -/

def untouched (S : Type*) : Edits Unit S where
  act _ s := s
  keep := ()
  seq _ _ := ()
  act_keep _ := rfl
  act_seq _ _ _ := rfl
  act_twice _ _ := rfl

inductive Rewrite (E S : Type*) where
  | write (s : S)
  | edit (e : E)

namespace Rewrite

variable (A : Edits E S)

def act : Rewrite E S → S → S
  | write s,_ => s
  | edit e,s => A.act e s

def seq : Rewrite E S → Rewrite E S → Rewrite E S
  | _,write s => write s
  | write s,edit e => write (A.act e s)
  | edit d,edit e => edit (A.seq d e)

end Rewrite

def orWritten (A : Edits E S) : Edits (Rewrite E S) S where
  act := Rewrite.act A
  keep := .edit A.keep
  seq := Rewrite.seq A
  act_keep s := A.act_keep s
  act_seq d e s := by
    cases e with
    | write t => cases d <;> rfl
    | edit e =>
      cases d with
      | write t => rfl
      | edit d => exact A.act_seq d e s
  act_twice e s := by
    cases e with
    | write t => rfl
    | edit e => exact A.act_twice e s

def ifPresent (A : Edits E S) : Edits E (Option S) where
  act e o := o.map (A.act e)
  keep := A.keep
  seq := A.seq
  act_keep o := by
    cases o with
    | none => rfl
    | some s => exact congrArg some (A.act_keep s)
  act_seq d e o := by
    cases o with
    | none => rfl
    | some s => exact congrArg some (A.act_seq d e s)
  act_twice e o := by
    cases o with
    | none => rfl
    | some s => exact congrArg some (A.act_twice e s)

def dropped (K : Type*) [DecidableEq K] : Edits (List K) (Option K) where
  act ks p := p.filter (fun k => k ∉ ks)
  keep := []
  seq ks js := ks++js
  act_keep p := by
    cases p <;> simp
  act_seq ks js p := by
    cases p with
    | none => rfl
    | some k => by_cases hk : k ∈ ks <;> by_cases hj : k ∈ js <;> simp [Option.filter,hk,hj]
  act_twice ks p := by
    cases p with
    | none => rfl
    | some k => by_cases hk : k ∈ ks <;> simp [Option.filter,hk]

end BlockDocs.RepeatableEdits
