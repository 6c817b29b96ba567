import Mathlib.Data.List.Chain

/-!
# Fusing neighbours

One sweep over a list fuses each element with the one after it where the two allow it; the
fused element is tried again with the next.
-/

set_option autoImplicit false

namespace BlockDocs.Fusion

variable {α β : Type*} (fuse : α → α → Option α)

def sweepFrom (prev : α) : List α → List α
  | [] => [prev]
  | cur::rest =>
    match fuse prev cur with
    | some fused => sweepFrom fused rest
    | none => prev::sweepFrom cur rest

def sweep : List α → List α
  | [] => []
  | a::l => sweepFrom fuse a l

def Apart (l : List α) : Prop := l.IsChain (fun a b => fuse a b = none)

def KeepsFront : Prop := ∀ p a b m, fuse a b = some m → fuse p a = none → fuse p m = none

structure Reads (Inv : α → Prop) (f : α → List β) : Prop where
  keeps : ∀ a b m, Inv a → Inv b → fuse a b = some m → Inv m
  parts : ∀ a b m, Inv a → Inv b → fuse a b = some m → f m = f a++f b

variable {fuse}

theorem sweepFrom_some {prev cur fused : α} {rest : List α} (h : fuse prev cur = some fused) :
    sweepFrom fuse prev (cur::rest) = sweepFrom fuse fused rest := by
  simp only [sweepFrom,h]

theorem sweepFrom_none {prev cur : α} {rest : List α} (h : fuse prev cur = none) :
    sweepFrom fuse prev (cur::rest) = prev::sweepFrom fuse cur rest := by
  simp only [sweepFrom,h]

/-! ## Neighbours of the output -/

theorem apart_behind (hfront : KeepsFront fuse) {p prev : α} (l : List α)
    (h : fuse p prev = none) : Apart fuse (p::sweepFrom fuse prev l) := by
  induction l generalizing p prev with
  | nil => exact List.isChain_cons_cons.mpr ⟨h,List.isChain_singleton _⟩
  | cons cur rest ih =>
    cases hcur : fuse prev cur with
    | some fused =>
      rw [sweepFrom_some hcur]
      exact ih (hfront p prev cur fused hcur h)
    | none =>
      rw [sweepFrom_none hcur]
      exact List.isChain_cons_cons.mpr ⟨h,ih hcur⟩

theorem apart_sweepFrom (hfront : KeepsFront fuse) (prev : α) (l : List α) :
    Apart fuse (sweepFrom fuse prev l) := by
  induction l generalizing prev with
  | nil => exact List.isChain_singleton _
  | cons cur rest ih =>
    cases hcur : fuse prev cur with
    | some fused =>
      rw [sweepFrom_some hcur]
      exact ih fused
    | none =>
      rw [sweepFrom_none hcur]
      exact apart_behind hfront rest hcur

theorem apart_sweep (hfront : KeepsFront fuse) (l : List α) : Apart fuse (sweep fuse l) := by
  cases l with
  | nil => exact List.IsChain.nil
  | cons a l => exact apart_sweepFrom hfront a l

theorem sweep_of_apart {l : List α} (h : Apart fuse l) : sweep fuse l = l := by
  cases l with
  | nil => rfl
  | cons a l =>
    change sweepFrom fuse a l = a::l
    induction l generalizing a with
    | nil => rfl
    | cons b l ih =>
      obtain ⟨hab,hl⟩ := List.isChain_cons_cons.mp h
      rw [sweepFrom_none hab,ih b hl]

theorem sweep_idempotent (hfront : KeepsFront fuse) (l : List α) :
    sweep fuse (sweep fuse l) = sweep fuse l :=
  sweep_of_apart (apart_sweep hfront l)

/-! ## What is read from the output -/

variable {Inv : α → Prop} {f : α → List β}

theorem sweepFrom_reads (hread : Reads fuse Inv f) {prev : α} {l : List α} (hp : Inv prev)
    (hl : ∀ a ∈ l, Inv a) : (∀ a ∈ sweepFrom fuse prev l, Inv a) ∧
      (sweepFrom fuse prev l).flatMap f = f prev++l.flatMap f := by
  induction l generalizing prev with
  | nil => exact ⟨List.forall_mem_singleton.mpr hp,rfl⟩
  | cons cur rest ih =>
    obtain ⟨hcur,hrest⟩ := List.forall_mem_cons.mp hl
    cases hfuse : fuse prev cur with
    | some fused =>
      obtain ⟨hinv,heq⟩ := ih (hread.keeps prev cur fused hp hcur hfuse) hrest
      rw [sweepFrom_some hfuse]
      refine ⟨hinv,?_⟩
      rw [heq,hread.parts prev cur fused hp hcur hfuse,List.flatMap_cons,List.append_assoc]
    | none =>
      obtain ⟨hinv,heq⟩ := ih hcur hrest
      rw [sweepFrom_none hfuse]
      refine ⟨List.forall_mem_cons.mpr ⟨hp,hinv⟩,?_⟩
      rw [List.flatMap_cons,List.flatMap_cons,heq]

theorem sweep_reads (hread : Reads fuse Inv f) {l : List α} (hl : ∀ a ∈ l, Inv a) :
    (∀ a ∈ sweep fuse l, Inv a) ∧ (sweep fuse l).flatMap f = l.flatMap f := by
  cases l with
  | nil => exact ⟨hl,rfl⟩
  | cons a l =>
    obtain ⟨ha,hl⟩ := List.forall_mem_cons.mp hl
    exact sweepFrom_reads hread ha hl

/-- A map that commutes with fusing commutes with the sweep. -/
theorem sweep_map {γ : Type*} {fuse' : γ → γ → Option γ} (g : α → γ)
    (h : ∀ a b, fuse' (g a) (g b) = (fuse a b).map g) (l : List α) :
    sweep fuse' (l.map g) = (sweep fuse l).map g := by
  cases l with
  | nil => rfl
  | cons a l =>
    change sweepFrom fuse' (g a) (l.map g) = (sweepFrom fuse a l).map g
    induction l generalizing a with
    | nil => rfl
    | cons b l ih =>
      have hab := h a b
      cases hfuse : fuse a b with
      | some fused =>
        rw [hfuse] at hab
        rw [List.map_cons,sweepFrom_some hab,sweepFrom_some hfuse,ih]
      | none =>
        rw [hfuse] at hab
        rw [List.map_cons,sweepFrom_none hab,sweepFrom_none hfuse,ih,List.map_cons]

end BlockDocs.Fusion
