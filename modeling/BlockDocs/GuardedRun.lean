import Mathlib.Data.List.Basic
import Mathlib.Tactic

/-!
# Runs of a guarded step function

A step may be refused, and then the run stops. A property of all reached
states is decided step by step once an unconditional invariant is known, and
the condition under which a step keeps the property is exact.
-/

set_option autoImplicit false

namespace BlockDocs.GuardedRun

variable {S A : Type*} (step : S → A → Option S)

def exec : S → List A → Option S
  | s, [] => some s
  | s, a::as => (step s a).bind (fun t => exec t as)

def Throughout (P : S → Prop) : S → List A → Prop
  | s, [] => P s
  | s, a::as => P s ∧ ∀ t, step s a = some t → Throughout P t as

def Along (C : S → A → Prop) : S → List A → Prop
  | _, [] => True
  | s, a::as => ∀ t, step s a = some t → C s a ∧ Along C t as

variable {step}

theorem exec_append (as bs : List A) (s : S) :
    exec step s (as++bs) = (exec step s as).bind (fun t => exec step t bs) := by
  induction as generalizing s with
  | nil => rfl
  | cons a as ih =>
    simp only [List.cons_append,exec]
    cases step s a with
    | none => rfl
    | some t => exact ih t

theorem exec_invariant {I : S → Prop} (hI : ∀ s a t, I s → step s a = some t → I t)
    {as : List A} {s t : S} (hs : I s) (h : exec step s as = some t) : I t := by
  induction as generalizing s with
  | nil => exact Option.some.inj h ▸ hs
  | cons a as ih =>
    obtain ⟨u,hu,ht⟩ := Option.bind_eq_some_iff.mp h
    exact ih (hI s a u hs hu) ht

theorem throughout_head {P : S → Prop} {s : S} {as : List A} (h : Throughout step P s as) :
    P s := by
  cases as with
  | nil => exact h
  | cons a as => exact h.1

theorem throughout_iff_prefixes {P : S → Prop} {s : S} {as : List A} :
    Throughout step P s as ↔ ∀ bs, bs <+: as → ∀ t, exec step s bs = some t → P t := by
  induction as generalizing s with
  | nil =>
    constructor
    · rintro h bs hbs t ht
      rw [List.prefix_nil.mp hbs] at ht
      exact Option.some.inj ht ▸ h
    · exact fun h => h [] (List.prefix_refl _) s rfl
  | cons a as ih =>
    constructor
    · rintro ⟨hs,hnext⟩ bs hbs t ht
      cases bs with
      | nil => exact Option.some.inj ht ▸ hs
      | cons b bs =>
        obtain ⟨rfl,hrest⟩ := List.cons_prefix_cons.mp hbs
        obtain ⟨u,hu,hut⟩ := Option.bind_eq_some_iff.mp ht
        exact ih.mp (hnext u hu) bs hrest t hut
    · intro h
      refine ⟨h [] (List.nil_prefix) s rfl,fun u hu => ih.mpr ?_⟩
      intro bs hbs t ht
      apply h (a::bs) (List.cons_prefix_cons.mpr ⟨rfl,hbs⟩) t
      simpa [exec,hu] using ht

theorem throughout_mono {P Q : S → Prop} (h : ∀ s, P s → Q s) {s : S} {as : List A}
    (hp : Throughout step P s as) : Throughout step Q s as := by
  rw [throughout_iff_prefixes] at hp ⊢
  exact fun bs hbs t ht => h t (hp bs hbs t ht)

/-- A second property that each step keeps while the first one holds. -/
theorem throughout_and {P J : S → Prop}
    (hJ : ∀ s a t, P s → J s → step s a = some t → P t → J t) {s : S} {as : List A} (hj : J s)
    (hp : Throughout step P s as) : Throughout step (fun s => P s ∧ J s) s as := by
  induction as generalizing s with
  | nil => exact ⟨hp,hj⟩
  | cons a as ih =>
    refine ⟨⟨hp.1,hj⟩,fun t ht => ?_⟩
    have hrest := hp.2 t ht
    exact ih (hJ s a t hp.1 hj ht (throughout_head hrest)) hrest

theorem along_congr {C D : S → A → Prop} (h : ∀ s a, C s a ↔ D s a) {s : S} {as : List A} :
    Along step C s as ↔ Along step D s as := by
  induction as generalizing s with
  | nil => exact Iff.rfl
  | cons a as ih =>
    show (∀ t, step s a = some t → C s a ∧ Along step C t as) ↔
      ∀ t, step s a = some t → D s a ∧ Along step D t as
    simp only [h s a,ih]

theorem along_mono {C D : S → A → Prop} (h : ∀ s a, C s a → D s a) {s : S} {as : List A}
    (hc : Along step C s as) : Along step D s as := by
  induction as generalizing s with
  | nil => trivial
  | cons a as ih =>
    intro t ht
    obtain ⟨ha,hrest⟩ := hc t ht
    exact ⟨h s a ha,ih hrest⟩

theorem along_cons {C : S → A → Prop} {s t : S} {a : A} {as : List A} (h : step s a = some t)
    (hc : C s a) (hrest : Along step C t as) : Along step C s (a::as) := by
  intro u hu
  obtain rfl := Option.some.inj (h.symm.trans hu)
  exact ⟨hc,hrest⟩

instance decidableAlong (C : S → A → Prop) [∀ s a, Decidable (C s a)] :
    ∀ (s : S) (as : List A), Decidable (Along step C s as)
  | _, [] => isTrue trivial
  | s, a::as =>
    match h : step s a with
    | none => isTrue (fun t ht => by cases h.symm.trans ht)
    | some t =>
      have := decidableAlong C t as
      decidable_of_iff (C s a ∧ Along step C t as)
        ⟨fun hc => along_cons h hc.1 hc.2,fun hc => hc t h⟩

theorem throughout_of_along {P : S → Prop} {C : S → A → Prop}
    (hC : ∀ s a t, P s → step s a = some t → C s a → P t) {s : S} {as : List A} (hp : P s)
    (h : Along step C s as) : Throughout step P s as := by
  induction as generalizing s with
  | nil => exact hp
  | cons a as ih =>
    refine ⟨hp,fun t ht => ?_⟩
    have hstep := h t ht
    exact ih (hC s a t hp ht hstep.1) hstep.2

/-- A total step function. -/
theorem fold_of_along {f : S → A → S} {P : S → Prop} {C : S → A → Prop}
    (hC : ∀ s a, P s → C s a → P (f s a)) {s : S} {as : List A} (hp : P s)
    (h : Along (fun s a => some (f s a)) C s as) : P (as.foldl f s) := by
  induction as generalizing s with
  | nil => exact hp
  | cons a as ih =>
    obtain ⟨hc,hrest⟩ := h (f s a) rfl
    exact ih (hC s a hp hc) hrest

theorem along_of_throughout {P : S → Prop} {C : S → A → Prop}
    (hC : ∀ s a t, P s → step s a = some t → P t → C s a) {s : S} {as : List A}
    (h : Throughout step P s as) : Along step C s as := by
  induction as generalizing s with
  | nil => trivial
  | cons a as ih =>
    intro t ht
    have hrest := h.2 t ht
    exact ⟨hC s a t h.1 ht (throughout_head hrest),ih hrest⟩

/-- The exact rule: given what holds wherever the property has held so far, the
property holds throughout a run if and only if each step meets the condition
that decides it. -/
theorem throughout_iff_along_kept {J P : S → Prop} {C : S → A → Prop}
    (hJ : ∀ s a t, J s → step s a = some t → P t → J t)
    (hC : ∀ s a t, J s → P s → step s a = some t → (P t ↔ C s a))
    {s : S} {as : List A} (hs : J s) (hp : P s) :
    Throughout step P s as ↔ Along step C s as := by
  constructor
  · intro h
    have hboth := throughout_and (fun s a t _ hj ht hpt => hJ s a t hj ht hpt) hs h
    exact along_of_throughout (fun s a t hs ht hpt => (hC s a t hs.2 hs.1 ht).mp hpt.1) hboth
  · intro h
    have hboth : Throughout step (fun s => P s ∧ J s) s as := by
      refine throughout_of_along (fun s a t hs ht hc => ?_) ⟨hp,hs⟩ h
      have hpt := (hC s a t hs.2 hs.1 ht).mpr hc
      exact ⟨hpt,hJ s a t hs.2 ht hpt⟩
    exact throughout_mono (fun _ hs => hs.1) hboth

/-- The same with an invariant that every step keeps. -/
theorem throughout_iff_along {I P : S → Prop} {C : S → A → Prop}
    (hI : ∀ s a t, I s → step s a = some t → I t)
    (hC : ∀ s a t, I s → P s → step s a = some t → (P t ↔ C s a))
    {s : S} {as : List A} (hs : I s) (hp : P s) :
    Throughout step P s as ↔ Along step C s as :=
  throughout_iff_along_kept (fun s a t hs ht _ => hI s a t hs ht) hC hs hp

/-- A step function that does in the images of states what another one does in the states. -/
theorem exec_map {T : Type*} {step' : T → A → Option T} {f : S → T} {I : S → Prop}
    {C : A → Prop} (hI : ∀ s a t, I s → C a → step s a = some t → I t)
    (hf : ∀ s a, I s → C a → step' (f s) a = (step s a).map f) {s : S} {as : List A} (hs : I s)
    (has : ∀ a ∈ as, C a) : exec step' (f s) as = (exec step s as).map f := by
  induction as generalizing s with
  | nil => rfl
  | cons a as ih =>
    have ha := has a List.mem_cons_self
    simp only [exec]
    rw [hf s a hs ha]
    cases ht : step s a with
    | none => rfl
    | some t => exact ih (hI s a t hs ha ht) (fun b hb => has b (List.mem_cons_of_mem a hb))

end BlockDocs.GuardedRun
