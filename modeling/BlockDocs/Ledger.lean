import Mathlib.Data.List.Basic

/-!
# Write-once stores

The log of a store tells which values were created under a key and which were served.
What was created stays: every later answer gives the same value.
-/

set_option autoImplicit false

namespace BlockDocs.Ledger

variable {K V : Type*}

inductive Event (K V : Type*) where
  | created (key : K) (value : V)
  | served (key : K) (value : V)
  deriving DecidableEq, Repr

/-- Behind the creation of a key it is served with that value only. -/
def WriteOnce (log : List (Event K V)) : Prop :=
  log.Pairwise fun e e' => ∀ key value value',
    e = .created key value → e' = .served key value' → value' = value

def Completed (log : List (Event K V)) (key : K) : Prop := ∃ value, .created key value ∈ log

def Backed (stored : K → Option V) (log : List (Event K V)) : Prop :=
  ∀ key value, .created key value ∈ log → stored key = some value

variable {stored stored' : K → Option V} {log : List (Event K V)} {key : K} {value : V}

theorem writeOnce_nil : WriteOnce ([] : List (Event K V)) := List.Pairwise.nil

theorem backed_nil (stored : K → Option V) : Backed stored [] :=
  fun _ _ h => absurd h List.not_mem_nil

theorem writeOnce_created (h : WriteOnce log) (key : K) (value : V) :
    WriteOnce (log++[.created key value]) := by
  apply List.pairwise_append.mpr
  refine ⟨h,List.pairwise_singleton _ _,fun e _ e' he' key value value' _ hserved => ?_⟩
  rw [List.mem_singleton.mp he'] at hserved
  cases hserved

theorem writeOnce_served (h : WriteOnce log) (hb : Backed stored log)
    (hs : stored key = some value) : WriteOnce (log++[.served key value]) := by
  apply List.pairwise_append.mpr
  refine ⟨h,List.pairwise_singleton _ _,fun e he e' he' key' v v' hcreated hserved => ?_⟩
  rw [List.mem_singleton.mp he'] at hserved
  cases hserved
  rw [hcreated] at he
  exact Option.some.inj (hs.symm.trans (hb _ _ he))

theorem backed_served (h : Backed stored log) (key : K) (value : V) :
    Backed stored (log++[.served key value]) := by
  intro key' v hv
  rcases List.mem_append.mp hv with hv | hv
  · exact h key' v hv
  · cases List.mem_singleton.mp hv

/-- A store that changes under other keys only. -/
theorem backed_of_kept (h : Backed stored log)
    (hkept : ∀ key, Completed log key → stored' key = stored key) : Backed stored' log := by
  intro key value hv
  rw [hkept key ⟨value,hv⟩]
  exact h key value hv

theorem backed_created (h : Backed stored log)
    (hkept : ∀ key, Completed log key → stored' key = stored key)
    (hnew : stored' key = some value) : Backed stored' (log++[.created key value]) := by
  intro key' v hv
  rcases List.mem_append.mp hv with hv | hv
  · exact backed_of_kept h hkept key' v hv
  · cases List.mem_singleton.mp hv
    exact hnew

theorem completed_created {key' : K} (h : Completed (log++[.created key value]) key') :
    Completed log key' ∨ key' = key := by
  obtain ⟨v,hv⟩ := h
  rcases List.mem_append.mp hv with hv | hv
  · exact Or.inl ⟨v,hv⟩
  · cases List.mem_singleton.mp hv
    exact Or.inr rfl

theorem completed_served {key' : K} (h : Completed (log++[.served key value]) key') :
    Completed log key' := by
  obtain ⟨v,hv⟩ := h
  rcases List.mem_append.mp hv with hv | hv
  · exact ⟨v,hv⟩
  · cases List.mem_singleton.mp hv

end BlockDocs.Ledger
