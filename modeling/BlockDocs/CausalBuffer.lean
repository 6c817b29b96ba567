import Mathlib.Data.List.Nodup
import Mathlib.Data.List.Perm.Basic
import Mathlib.Tactic

/-!
# Items that wait for what they need

A receiver stores an item once everything the item names is stored, and keeps
the others until then. What is stored in the end depends on the items that came
in, not on the order or the number of their deliveries.
-/

set_option autoImplicit false

namespace BlockDocs.CausalBuffer

variable {α ι : Type*} (name : α → ι) (needs : α → List ι)

def Stored (store : List α) (i : ι) : Prop := i ∈ store.map name

def Ready (store : List α) (x : α) : Prop := ∀ i ∈ needs x, Stored name store i

def Causal : List α → List α → Prop
  | _, [] => True
  | store, x::xs => Ready name needs store x ∧ Causal (store++[x]) xs

def Stuck (store waiting : List α) : Prop :=
  ∀ x ∈ waiting, ¬ Stored name store (name x) ∧ ¬ Ready name needs store x

structure Settles (store incoming next waiting : List α) : Prop where
  grown : ∃ new, next = store++new ∧ Causal name needs store new
  distinct : (store.map name).Nodup → (next.map name).Nodup
  sound : ∀ x, x ∈ next ∨ x ∈ waiting → x ∈ store ∨ x ∈ incoming
  kept : ∀ x ∈ incoming, x ∈ waiting ∨ Stored name next (name x)
  stuck : Stuck name needs next waiting

/-- A store and its waiting items, when exactly the listed items have come in. -/
structure Holds (known store waiting : List α) : Prop where
  known : ∀ x, x ∈ known ↔ x ∈ store ∨ x ∈ waiting
  causal : Causal name needs [] store
  distinct : (store.map name).Nodup
  stuck : Stuck name needs store waiting

variable {name needs} {store waiting incoming known : List α}

theorem stored_of_mem {x : α} (h : x ∈ store) : Stored name store (name x) :=
  List.mem_map.mpr ⟨x,h,rfl⟩

theorem stored_append {new : List α} {i : ι} :
    Stored name (store++new) i ↔ Stored name store i ∨ Stored name new i := by
  simp [Stored]

theorem ready_mono {more : List α} (h : ∀ i, Stored name store i → Stored name more i) {x : α}
    (hx : Ready name needs store x) : Ready name needs more x :=
  fun i hi => h i (hx i hi)

theorem causal_append (xs ys : List α) : Causal name needs store (xs++ys) ↔
    Causal name needs store xs ∧ Causal name needs (store++xs) ys := by
  induction xs generalizing store with
  | nil => simp [Causal]
  | cons x xs ih => simp [Causal,ih,and_assoc]

theorem Causal.mono {more list : List α} (h : Causal name needs store list)
    (hsub : ∀ i, Stored name store i → Stored name more i) : Causal name needs more list := by
  induction list generalizing store more with
  | nil => trivial
  | cons x xs ih =>
    refine ⟨ready_mono hsub h.1,ih h.2 (fun i hi => ?_)⟩
    exact stored_append.mpr ((stored_append.mp hi).imp_left (hsub i))

/-- Along a causal list, what each item inherits from those that it needs. -/
theorem causal_induction {P : α → Prop} {base list : List α}
    (hcausal : Causal name needs base list) (hbase : ∀ x ∈ base, P x)
    (hnext : ∀ y ∈ list, (∀ i ∈ needs y, ∃ x, P x ∧ name x = i) → P y) : ∀ x ∈ list, P x := by
  induction list generalizing base with
  | nil => exact fun x hx => absurd hx List.not_mem_nil
  | cons y ys ih =>
    have hy : P y := by
      refine hnext y List.mem_cons_self (fun i hi => ?_)
      obtain ⟨x,hx,hname⟩ := List.mem_map.mp (hcausal.1 i hi)
      exact ⟨x,hbase x hx,hname⟩
    have hall : ∀ x ∈ base++[y], P x := by
      intro x hx
      rcases List.mem_append.mp hx with hx | hx
      · exact hbase x hx
      · exact List.mem_singleton.mp hx ▸ hy
    intro x hx
    rcases List.mem_cons.mp hx with rfl | hx
    · exact hy
    · exact ih hcausal.2 hall (fun z hz => hnext z (List.mem_cons_of_mem _ hz)) x hx

/-- A causal list is stored in full once all of it has come in. -/
theorem stored_of_causal {base list : List α} (hstuck : Stuck name needs store waiting)
    (hcausal : Causal name needs base list) (hbase : ∀ x ∈ base, Stored name store (name x))
    (hlist : ∀ x ∈ list, x ∈ waiting ∨ Stored name store (name x)) :
    ∀ x ∈ list, Stored name store (name x) := by
  refine causal_induction hcausal hbase (fun y hy hneeds => ?_)
  have hready : Ready name needs store y := by
    intro i hi
    obtain ⟨x,hx,rfl⟩ := hneeds i hi
    exact hx
  exact (hlist y hy).resolve_left (fun hwaits => (hstuck y hwaits).2 hready)

theorem holds_nil : Holds name needs [] [] [] where
  known := by simp
  causal := trivial
  distinct := List.nodup_nil
  stuck := fun x hx => absurd hx List.not_mem_nil

theorem Holds.congr {other : List α} (h : Holds name needs known store waiting)
    (heq : ∀ x, x ∈ known ↔ x ∈ other) : Holds name needs other store waiting :=
  { h with known := fun x => (heq x).symm.trans (h.known x) }

theorem Holds.stored_or_waits (h : Holds name needs known store waiting) {x : α}
    (hx : x ∈ known) : x ∈ waiting ∨ Stored name store (name x) :=
  ((h.known x).mp hx).symm.imp_right stored_of_mem

theorem Holds.mem_of_stored (h : Holds name needs known store waiting)
    (hone : Set.InjOn name {x | x ∈ known}) {x : α} (hx : x ∈ known)
    (hs : Stored name store (name x)) : x ∈ store := by
  obtain ⟨y,hy,hname⟩ := List.mem_map.mp hs
  exact hone ((h.known y).mpr (.inl hy)) hx hname ▸ hy

/-- Taking in more items. -/
theorem Holds.settle {next rest : List α} (h : Holds name needs known store waiting)
    (hone : Set.InjOn name {x | x ∈ known++incoming})
    (hs : Settles name needs store (waiting++incoming) next rest) :
    Holds name needs (known++incoming) next rest := by
  obtain ⟨new,hnext,hcausal⟩ := hs.grown
  have hsound : ∀ x, x ∈ next ∨ x ∈ rest → x ∈ known++incoming := by
    intro x hx
    rcases hs.sound x hx with hx | hx
    · exact List.mem_append_left _ ((h.known x).mpr (.inl hx))
    · rcases List.mem_append.mp hx with hx | hx
      · exact List.mem_append_left _ ((h.known x).mpr (.inr hx))
      · exact List.mem_append_right _ hx
  refine ⟨fun x => ⟨fun hx => ?_,hsound x⟩,?_,hs.distinct h.distinct,hs.stuck⟩
  · have hcame : x ∈ store ∨ x ∈ waiting++incoming := by
      rcases List.mem_append.mp hx with hx | hx
      · exact ((h.known x).mp hx).imp_right (List.mem_append_left _)
      · exact .inr (List.mem_append_right _ hx)
    rcases hcame with hold | hcame
    · exact .inl (hnext ▸ List.mem_append_left _ hold)
    · rcases hs.kept x hcame with hwaits | hstored
      · exact .inr hwaits
      · obtain ⟨y,hy,hname⟩ := List.mem_map.mp hstored
        exact .inl (hone (hsound y (.inl hy)) hx hname ▸ hy)
  · rw [hnext,causal_append]
    exact ⟨h.causal,hcausal⟩

/-- New items of one's own, which nothing that waits can need. -/
theorem Holds.extend {new : List α} (h : Holds name needs known store waiting)
    (hcausal : Causal name needs store new) (hdistinct : (new.map name).Nodup)
    (hfresh : ∀ x ∈ known, ¬ Stored name new (name x))
    (hneed : ∀ x ∈ known, ∀ i ∈ needs x, ¬ Stored name new i) :
    Holds name needs (known++new) (store++new) waiting := by
  refine ⟨fun x => ?_,?_,?_,fun x hx => ?_⟩
  · simp only [List.mem_append,h.known x]
    tauto
  · rw [causal_append]
    exact ⟨h.causal,hcausal⟩
  · rw [List.map_append,List.nodup_append]
    refine ⟨h.distinct,hdistinct,fun i hi j hj hij => ?_⟩
    obtain ⟨x,hx,rfl⟩ := List.mem_map.mp hi
    exact hfresh x ((h.known x).mpr (.inl hx)) (hij ▸ hj)
  · have hx' : x ∈ known := (h.known x).mpr (.inr hx)
    constructor
    · intro hs
      rcases stored_append.mp hs with hs | hs
      · exact (h.stuck x hx).1 hs
      · exact hfresh x hx' hs
    · intro hready
      refine (h.stuck x hx).2 (fun i hi => ?_)
      rcases stored_append.mp (hready i hi) with hs | hs
      · exact hs
      · exact absurd hs (hneed x hx' i hi)

theorem Holds.stored_subset {other rest : List α} (h : Holds name needs known store waiting)
    (h' : Holds name needs known other rest) (hone : Set.InjOn name {x | x ∈ known}) :
    ∀ x ∈ store, x ∈ other := by
  intro x hx
  have hknown : x ∈ known := (h.known x).mpr (.inl hx)
  refine h'.mem_of_stored hone hknown ?_
  exact stored_of_causal h'.stuck h.causal (fun y hy => absurd hy List.not_mem_nil)
    (fun y hy => h'.stored_or_waits ((h.known y).mpr (.inl hy))) x hx

/-- The same items that came in leave the same store. -/
theorem Holds.perm {other rest : List α} (h : Holds name needs known store waiting)
    (h' : Holds name needs known other rest) (hone : Set.InjOn name {x | x ∈ known}) :
    store.Perm other :=
  (List.perm_ext_iff_of_nodup (List.Nodup.of_map _ h.distinct)
    (List.Nodup.of_map _ h'.distinct)).mpr
    (fun x => ⟨h.stored_subset h' hone x,h'.stored_subset h hone x⟩)

/-! ## A receiver -/

theorem settles_nothing (h : Stuck name needs store waiting) :
    Settles name needs store waiting store waiting where
  grown := ⟨[],(List.append_nil _).symm,trivial⟩
  distinct := id
  sound := fun _ hx => hx
  kept := fun _ hx => .inl hx
  stuck := h

/-- Items taken in one by one come from the store if the others lack something in it. -/
theorem causal_subset {base list : List α} (hstuck : Stuck name needs store waiting)
    (hcausal : Causal name needs base list) (hbase : ∀ x ∈ base, x ∈ store)
    (hlist : ∀ x ∈ list, x ∈ store ∨ x ∈ waiting) : ∀ x ∈ list, x ∈ store := by
  refine causal_induction hcausal hbase (fun y hy hneeds => ?_)
  have hready : Ready name needs store y := by
    intro i hi
    obtain ⟨x,hx,rfl⟩ := hneeds i hi
    exact stored_of_mem hx
  exact (hlist y hy).resolve_right (fun hwaits => (hstuck y hwaits).2 hready)

/-- An empty receiver that takes in a store with its waiting items has the same store. -/
theorem Settles.reload {next rest : List α} (h : Settles name needs [] (store++waiting) next rest)
    (hcausal : Causal name needs [] store) (hdistinct : (store.map name).Nodup)
    (hstuck : Stuck name needs store waiting) : next.Perm store := by
  obtain ⟨new,hnew,hcausalNew⟩ := h.grown
  have hnext : ∀ x ∈ next, x ∈ store := by
    rw [hnew]
    refine causal_subset hstuck hcausalNew (fun x hx => absurd hx List.not_mem_nil) (fun x hx => ?_)
    have hx : x ∈ next := hnew ▸ hx
    rcases h.sound x (.inl hx) with hx | hx
    · exact absurd hx List.not_mem_nil
    · exact List.mem_append.mp hx
  have hdistinctNext : (next.map name).Nodup := h.distinct List.nodup_nil
  have hall : ∀ x ∈ store, Stored name next (name x) :=
    stored_of_causal h.stuck hcausal (fun x hx => absurd hx List.not_mem_nil)
      (fun x hx => h.kept x (List.mem_append_left _ hx))
  refine (List.perm_ext_iff_of_nodup (List.Nodup.of_map _ hdistinctNext)
    (List.Nodup.of_map _ hdistinct)).mpr (fun x => ⟨hnext x,fun hx => ?_⟩)
  obtain ⟨y,hy,hname⟩ := List.mem_map.mp (hall x hx)
  exact List.inj_on_of_nodup_map hdistinct (hnext y hy) hx hname ▸ hy

section Settle
variable [DecidableEq ι]

instance (store : List α) (i : ι) : Decidable (Stored name store i) :=
  inferInstanceAs (Decidable (_ ∈ _))

instance (store : List α) (x : α) : Decidable (Ready name needs store x) :=
  inferInstanceAs (Decidable (∀ _ ∈ _, _))

instance causalDecidable : (store list : List α) → Decidable (Causal name needs store list)
  | _, [] => isTrue trivial
  | store, x::xs => @instDecidableAnd _ _ _ (causalDecidable (store++[x]) xs)

variable (name needs) in
def Passes (store : List α) (x : α) : Prop :=
  Stored name store (name x) ∨ Ready name needs store x

instance (store : List α) (x : α) : Decidable (Passes name needs store x) :=
  inferInstanceAs (Decidable (_ ∨ _))

variable (name needs) in
def settle : ℕ → List α → List α → List α × List α
  | 0, store, waiting => (store,waiting)
  | n+1, store, waiting =>
    match waiting.find? (fun x => Passes name needs store x) with
    | none => (store,waiting)
    | some x => settle n (if Stored name store (name x) then store else store++[x])
        (waiting.eraseP (fun y => Passes name needs store y))

/-- One item out of the way. -/
theorem settles_pass {x : α} {before after next rest : List α}
    (hx : Passes name needs store x)
    (h : Settles name needs (if Stored name store (name x) then store else store++[x])
      (before++after) next rest) :
    Settles name needs store (before++x::after) next rest := by
  by_cases hstored : Stored name store (name x)
  · rw [if_pos hstored] at h
    obtain ⟨new,hnext,_⟩ := h.grown
    refine ⟨h.grown,h.distinct,fun y hy => ?_,fun y hy => ?_,h.stuck⟩
    · exact (h.sound y hy).imp_right (by simp; tauto)
    · by_cases hyx : y = x
      · exact .inr (hyx ▸ hnext ▸ stored_append.mpr (.inl hstored))
      · exact h.kept y (by simpa [hyx] using hy)
  · rw [if_neg hstored] at h
    obtain ⟨new,hnext,hcausal⟩ := h.grown
    have hready : Ready name needs store x := hx.resolve_left hstored
    refine ⟨⟨x::new,?_,hready,hcausal⟩,fun hd => h.distinct ?_,fun y hy => ?_,fun y hy => ?_,
      h.stuck⟩
    · rw [hnext,List.append_assoc,List.singleton_append]
    · rw [List.map_append,List.map_singleton]
      exact List.concat_eq_append ▸ hd.concat hstored
    · rcases h.sound y hy with hy | hy
      · rcases List.mem_append.mp hy with hy | hy
        · exact .inl hy
        · exact .inr (by simp [List.mem_singleton.mp hy])
      · exact .inr (by simp at hy ⊢; tauto)
    · by_cases hyx : y = x
      · exact .inr (hyx ▸ hnext ▸ stored_append.mpr (.inl (stored_of_mem (by simp))))
      · exact h.kept y (by simpa [hyx] using hy)

theorem settle_settles {n : ℕ} (h : waiting.length ≤ n) : Settles name needs store waiting
    (settle name needs n store waiting).1 (settle name needs n store waiting).2 := by
  induction n generalizing store waiting with
  | zero =>
    rw [List.length_eq_zero_iff.mp (Nat.le_zero.mp h)]
    exact settles_nothing (fun x hx => absurd hx List.not_mem_nil)
  | succ n ih =>
    rw [settle]
    split
    · next hnone =>
      refine settles_nothing (fun x hx => ?_)
      have hx' : ¬ Passes name needs store x := fun hp =>
        List.find?_eq_none.mp hnone x hx (decide_eq_true hp)
      exact not_or.mp hx'
    · next x hfound =>
      obtain ⟨hx,before,after,hwaiting,hbefore⟩ := List.find?_eq_some_iff_append.mp hfound
      have herase : waiting.eraseP (fun y => Passes name needs store y) = before++after := by
        rw [hwaiting,List.eraseP_append_right _ (fun y hy => by simpa using hbefore y hy),
          @List.eraseP_cons_of_pos _ x after (fun y => Passes name needs store y) hx]
      have hlength : (before++after).length ≤ n := by
        rw [hwaiting] at h
        simp at h ⊢
        omega
      rw [herase,hwaiting]
      exact settles_pass (of_decide_eq_true hx) (ih hlength)

end Settle

end BlockDocs.CausalBuffer
