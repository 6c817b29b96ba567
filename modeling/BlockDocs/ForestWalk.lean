import BlockDocs.ParentChain
import Mathlib.Data.List.Perm.Basic
import Mathlib.Data.List.Nodup

/-!
# Walking a forest

A listing in depth-first order, parents before their children, made from the
lists of children alone. It ends and lists every node once just where all
parent chains end in a root.
-/

set_option autoImplicit false

namespace BlockDocs.ForestWalk
open BlockDocs.ParentChain

variable {α β : Type*}

def walk (node : α → Option β) (kids : Option α → List α) : ℕ → α → Option (List β)
  | 0, _ => none
  | fuel+1, x =>
    match node x with
    | none => some []
    | some b =>
      ((kids (some x)).mapM (walk node kids fuel)).map (fun outs => b::outs.flatten)

def walkAll (node : α → Option β) (kids : Option α → List α) (fuel : ℕ) : Option (List β) :=
  ((kids none).mapM (walk node kids fuel)).map List.flatten

structure Listed (node : α → Option β) (kids : Option α → List α)
    (up : α → Option α → Prop) (label : β → α) : Prop where
  mem : ∀ o x, x ∈ kids o ↔ up x o
  nodup : ∀ o, (kids o).Nodup
  present : ∀ x o, up x o → ∃ b, node x = some b
  functional : Functional up
  labelled : ∀ x b, node x = some b → label b = x

/-! ## Levels -/

inductive At (up : α → Option α → Prop) : ℕ → α → Prop where
  | root {x : α} (h : up x none) : At up 0 x
  | child {n : ℕ} {x p : α} (h : up x (some p)) (hp : At up n p) : At up (n+1) x

variable {up : α → Option α → Prop} {n m : ℕ} {x y a b : α}

theorem rooted_iff_climbs : Rooted up x ↔ ∃ r, up r none ∧ Climbs up x r := by
  constructor
  · intro h
    induction h with
    | @root x hx => exact ⟨x,hx,.refl⟩
    | child hx _ ih =>
      obtain ⟨r,hr,hclimbs⟩ := ih
      exact ⟨r,hr,.head hx hclimbs⟩
  · rintro ⟨r,hr,hclimbs⟩
    induction hclimbs using Relation.ReflTransGen.head_induction_on with
    | refl => exact .root hr
    | head hx _ ih => exact .child hx ih

theorem at_unique (hf : Functional up) (h : At up m x) (h' : At up n x) : m = n := by
  induction h generalizing n with
  | root hx =>
    cases h' with
    | root => rfl
    | child hp => cases hf _ _ _ hx hp
  | child hx _ ih =>
    cases h' with
    | root hr => cases hf _ _ _ hx hr
    | child hp hq =>
      obtain rfl := Option.some.inj (hf _ _ _ hx hp)
      rw [ih hq]

/-- An ancestor is further up, if it is another node. -/
theorem climbs_level (hf : Functional up) (h : At up n x) (hc : Climbs up x a)
    (ha : At up m a) : m ≤ n ∧ (m = n → a = x) := by
  induction h with
  | @root x hx =>
    rcases Relation.ReflTransGen.cases_head hc with rfl | ⟨p,hp,_⟩
    · exact ⟨(at_unique hf ha (.root hx)).le,fun _ => rfl⟩
    · cases hf _ _ _ hx hp
  | @child n x p hx hp ih =>
    rcases Relation.ReflTransGen.cases_head hc with rfl | ⟨q,hq,hrest⟩
    · exact ⟨(at_unique hf ha (.child hx hp)).le,fun _ => rfl⟩
    · obtain rfl := Option.some.inj (hf _ _ _ hx hq)
      have hle := (ih hrest).1
      exact ⟨by omega,by omega⟩

/-- A node has one ancestor on each level. -/
theorem ancestor_unique (hf : Functional up) (h : At up n x) (hca : Climbs up x a)
    (hcb : Climbs up x b) (ha : At up m a) (hb : At up m b) : a = b := by
  induction h with
  | @root x hx =>
    have hself : ∀ c, Climbs up x c → c = x := by
      intro c hc
      rcases Relation.ReflTransGen.cases_head hc with rfl | ⟨p,hp,_⟩
      · rfl
      · cases hf _ _ _ hx hp
    rw [hself a hca,hself b hcb]
  | @child n x p hx hp ih =>
    have hxat : At up (n+1) x := .child hx hp
    rcases Relation.ReflTransGen.cases_head hca with rfl | ⟨q,hq,hqa⟩
    · exact ((climbs_level hf hxat hcb hb).2 (at_unique hf ha hxat)).symm
    · rcases Relation.ReflTransGen.cases_head hcb with rfl | ⟨q',hq',hqb⟩
      · exact (climbs_level hf hxat hca ha).2 (at_unique hf hb hxat)
      · obtain rfl := Option.some.inj (hf _ _ _ hx hq)
        obtain rfl := Option.some.inj (hf _ _ _ hx hq')
        exact ih hqa hqb

theorem at_below (h : At up m a) (hc : Climbs up x a) : ∃ n, At up n x := by
  induction hc using Relation.ReflTransGen.head_induction_on with
  | refl => exact ⟨m,h⟩
  | head hx _ ih =>
    obtain ⟨n,hn⟩ := ih
    exact ⟨n+1,.child hx hn⟩

/-- Finitely many nodes are on finitely many levels. -/
theorem levels_bounded (hf : Functional up) (xs : List α) :
    ∃ N, ∀ x ∈ xs, ∀ n, At up n x → n ≤ N := by
  induction xs with
  | nil => exact ⟨0,nofun⟩
  | cons x xs ih =>
    obtain ⟨N,hN⟩ := ih
    by_cases hx : ∃ k, At up k x
    · obtain ⟨k,hk⟩ := hx
      refine ⟨max k N,fun y hy n hn => ?_⟩
      rcases List.mem_cons.mp hy with rfl | hy
      · exact (at_unique hf hn hk).le.trans (le_max_left _ _)
      · exact (hN y hy n hn).trans (le_max_right _ _)
    · refine ⟨N,fun y hy n hn => ?_⟩
      rcases List.mem_cons.mp hy with rfl | hy
      · exact absurd ⟨n,hn⟩ hx
      · exact hN y hy n hn

/-! ## What a walk lists -/

variable {node : α → Option β} {kids : Option α → List α} {label : β → α}

def Covers (node : α → Option β) (P : α → Prop) (out : List β) : Prop :=
  out.Nodup ∧ ∀ c, c ∈ out ↔ ∃ y, node y = some c ∧ P y

theorem covers_walks (hl : Listed node kids up label) {ks : List α} (hnodup : ks.Nodup)
    (hat : ∀ k ∈ ks, At up m k) {g : α → Option (List β)}
    (h : ∀ k ∈ ks, ∃ out, g k = some out ∧ Covers node (fun y => Climbs up y k) out) :
    ∃ outs, ks.mapM g = some outs ∧
      Covers node (fun y => ∃ k ∈ ks, Climbs up y k) outs.flatten := by
  induction ks with
  | nil => exact ⟨[],rfl,List.nodup_nil,by simp⟩
  | cons k ks ih =>
    obtain ⟨hnew,hrest⟩ := List.nodup_cons.mp hnodup
    obtain ⟨out,hout,honce,hmem⟩ := h k List.mem_cons_self
    obtain ⟨outs,houts,hrestonce,hrestmem⟩ :=
      ih hrest (fun i hi => hat i (List.mem_cons_of_mem _ hi))
        (fun i hi => h i (List.mem_cons_of_mem _ hi))
    refine ⟨out::outs,by rw [List.mapM_cons,hout,houts]; rfl,?_,?_⟩
    · rw [List.flatten_cons]
      refine List.nodup_append.mpr ⟨honce,hrestonce,?_⟩
      rintro c hc _ hc' rfl
      obtain ⟨y,hy,hyk⟩ := (hmem c).mp hc
      obtain ⟨y',hy',i,hi,hyi⟩ := (hrestmem c).mp hc'
      obtain rfl : y = y' := (hl.labelled y c hy).symm.trans (hl.labelled y' c hy')
      obtain ⟨n,hn⟩ := at_below (hat k List.mem_cons_self) hyk
      have hsame := ancestor_unique hl.functional hn hyk hyi (hat k List.mem_cons_self)
        (hat i (List.mem_cons_of_mem _ hi))
      exact hnew (hsame ▸ hi)
    · intro c
      rw [List.flatten_cons,List.mem_append,hmem,hrestmem]
      constructor
      · rintro (⟨y,hy,hyk⟩ | ⟨y,hy,i,hi,hyi⟩)
        · exact ⟨y,hy,k,List.mem_cons_self,hyk⟩
        · exact ⟨y,hy,i,List.mem_cons_of_mem _ hi,hyi⟩
      · rintro ⟨y,hy,i,hi,hyi⟩
        rcases List.mem_cons.mp hi with rfl | hi
        · exact Or.inl ⟨y,hy,hyi⟩
        · exact Or.inr ⟨y,hy,i,hi,hyi⟩

theorem climbs_iff_kid (hl : Listed node kids up label) :
    Climbs up y x ↔ y = x ∨ ∃ k ∈ kids (some x), Climbs up y k := by
  constructor
  · intro h
    rcases Relation.ReflTransGen.cases_tail h with heq | ⟨k,hk,hx⟩
    · exact Or.inl heq.symm
    · exact Or.inr ⟨k,(hl.mem _ _).mpr hx,hk⟩
  · rintro (rfl | ⟨k,hk,hclimbs⟩)
    · exact .refl
    · exact .tail hclimbs ((hl.mem _ _).mp hk)

theorem node_at (hl : Listed node kids up label) (h : At up n x) : ∃ c, node x = some c := by
  cases h with
  | root hx => exact hl.present _ _ hx
  | child hx _ => exact hl.present _ _ hx

/-- With fuel for all levels below a node, the walk lists all that is below it. -/
theorem walk_covers (hl : Listed node kids up label) {N : ℕ}
    (hN : ∀ n x, At up n x → n ≤ N) (fuel : ℕ) : ∀ {n : ℕ} {x : α}, At up n x → N < n+fuel →
      ∃ out, walk node kids fuel x = some out ∧ Covers node (fun y => Climbs up y x) out := by
  induction fuel with
  | zero =>
    intro n x hx hfuel
    exact absurd (hN n x hx) (by omega)
  | succ fuel ih =>
    intro n x hx hfuel
    obtain ⟨c,hc⟩ := node_at hl hx
    have hkid : ∀ k ∈ kids (some x), At up (n+1) k := fun k hk => .child ((hl.mem _ _).mp hk) hx
    obtain ⟨outs,houts,honce,hmem⟩ := covers_walks hl (hl.nodup (some x)) hkid
      (fun k hk => ih (hkid k hk) (by omega))
    refine ⟨c::outs.flatten,by rw [walk,hc,houts]; rfl,List.nodup_cons.mpr ⟨?_,honce⟩,?_⟩
    · intro hself
      obtain ⟨y,hy,k,hk,hyk⟩ := (hmem c).mp hself
      obtain rfl : y = x := (hl.labelled y c hy).symm.trans (hl.labelled x c hc)
      have hle := (climbs_level hl.functional hx hyk (hkid k hk)).1
      omega
    · intro d
      rw [List.mem_cons,hmem]
      constructor
      · rintro (rfl | ⟨y,hy,hbelow⟩)
        · exact ⟨x,hc,.refl⟩
        · exact ⟨y,hy,(climbs_iff_kid hl).mpr (Or.inr hbelow)⟩
      · rintro ⟨y,hy,hbelow⟩
        rcases (climbs_iff_kid hl).mp hbelow with rfl | hbelow
        · exact Or.inl (Option.some.inj (hy.symm.trans hc))
        · exact Or.inr ⟨y,hy,hbelow⟩

theorem rooted_iff_below (hl : Listed node kids up label) :
    Rooted up x ↔ ∃ k ∈ kids none, Climbs up x k := by
  rw [rooted_iff_climbs]
  simp only [hl.mem]

theorem walkAll_covers (hl : Listed node kids up label) {N : ℕ}
    (hN : ∀ n x, At up n x → n ≤ N) :
    ∃ out, walkAll node kids (N+1) = some out ∧ Covers node (Rooted up) out := by
  have hroot : ∀ k ∈ kids none, At up 0 k := fun k hk => .root ((hl.mem _ _).mp hk)
  obtain ⟨outs,houts,honce,hmem⟩ := covers_walks hl (hl.nodup none) hroot
    (fun k hk => walk_covers hl hN (N+1) (hroot k hk) (by omega))
  refine ⟨outs.flatten,by rw [walkAll,houts]; rfl,honce,fun c => (hmem c).trans ?_⟩
  simp only [rooted_iff_below hl]

/-! ## What is listed has a root -/

theorem mapM_mem {γ : Type*} {g : α → Option γ} {ks : List α} {outs : List γ}
    (h : ks.mapM g = some outs) {out : γ} (hout : out ∈ outs) : ∃ k ∈ ks, g k = some out := by
  induction ks generalizing outs with
  | nil =>
    cases h
    cases hout
  | cons k ks ih =>
    rw [List.mapM_cons] at h
    obtain ⟨first,hfirst,hrest⟩ := Option.bind_eq_some_iff.mp h
    obtain ⟨rest,hks,heq⟩ := Option.bind_eq_some_iff.mp hrest
    obtain rfl := Option.some.inj heq
    rcases List.mem_cons.mp hout with rfl | hout
    · exact ⟨k,List.mem_cons_self,hfirst⟩
    · obtain ⟨i,hi,hg⟩ := ih hks hout
      exact ⟨i,List.mem_cons_of_mem _ hi,hg⟩

theorem walk_below (hl : Listed node kids up label) {fuel : ℕ} {out : List β} {c : β}
    (h : walk node kids fuel x = some out) (hc : c ∈ out) :
    ∃ y, node y = some c ∧ Climbs up y x := by
  induction fuel generalizing x out with
  | zero => cases h
  | succ fuel ih =>
    rw [walk] at h
    split at h
    · obtain rfl := Option.some.inj h
      cases hc
    · next d hd =>
      obtain ⟨outs,houts,rfl⟩ := Option.map_eq_some_iff.mp h
      rcases List.mem_cons.mp hc with rfl | hc
      · exact ⟨x,hd,.refl⟩
      · obtain ⟨rest,hrest,hcrest⟩ := List.mem_flatten.mp hc
        obtain ⟨k,hk,hwalk⟩ := mapM_mem houts hrest
        obtain ⟨y,hy,hclimbs⟩ := ih hwalk hcrest
        exact ⟨y,hy,(climbs_iff_kid hl).mpr (Or.inr ⟨k,hk,hclimbs⟩)⟩

theorem walkAll_rooted (hl : Listed node kids up label) {fuel : ℕ} {out : List β} {c : β}
    (h : walkAll node kids fuel = some out) (hc : c ∈ out) :
    ∃ y, node y = some c ∧ Rooted up y := by
  obtain ⟨outs,houts,rfl⟩ := Option.map_eq_some_iff.mp h
  obtain ⟨rest,hrest,hcrest⟩ := List.mem_flatten.mp hc
  obtain ⟨k,hk,hwalk⟩ := mapM_mem houts hrest
  obtain ⟨y,hy,hclimbs⟩ := walk_below hl hwalk hcrest
  exact ⟨y,hy,(rooted_iff_below hl).mpr ⟨k,hk,hclimbs⟩⟩

/-- The walk from the roots lists a finite set of nodes, each once, exactly when
all of them are rooted. -/
theorem walkAll_perm_iff (hl : Listed node kids up label) {all : List β} (hall : all.Nodup)
    (hmem : ∀ c, c ∈ all ↔ ∃ x, node x = some c) :
    (∃ fuel out, walkAll node kids fuel = some out ∧ out.Perm all) ↔
      ∀ x c, node x = some c → Rooted up x := by
  constructor
  · rintro ⟨fuel,out,hwalk,hperm⟩ x c hx
    obtain ⟨y,hy,hrooted⟩ := walkAll_rooted hl hwalk (hperm.mem_iff.mpr ((hmem c).mpr ⟨x,hx⟩))
    exact (hl.labelled x c hx).symm.trans (hl.labelled y c hy) ▸ hrooted
  · intro hrooted
    obtain ⟨N,hN⟩ := levels_bounded hl.functional (all.map label)
    have hbound : ∀ n x, At up n x → n ≤ N := by
      intro n x hx
      obtain ⟨c,hc⟩ := node_at hl hx
      exact hN x (List.mem_map.mpr ⟨c,(hmem c).mpr ⟨x,hc⟩,hl.labelled x c hc⟩) n hx
    obtain ⟨out,hout,honce,hlisted⟩ := walkAll_covers hl hbound
    refine ⟨N+1,out,hout,(List.perm_ext_iff_of_nodup honce hall).mpr fun c => ?_⟩
    rw [hlisted,hmem]
    constructor
    · rintro ⟨y,hy,_⟩
      exact ⟨y,hy⟩
    · rintro ⟨y,hy⟩
      exact ⟨y,hy,hrooted y c hy⟩

/-! ## What a walk lists of its nodes -/

theorem mapM_map {γ δ : Type*} (f : γ → δ) (g : α → Option γ) (ks : List α) :
    (ks.mapM g).map (List.map f) = ks.mapM (fun k => (g k).map f) := by
  induction ks with
  | nil => rfl
  | cons k ks ih =>
    rw [List.mapM_cons,List.mapM_cons,← ih]
    cases g k with
    | none => rfl
    | some c => cases ks.mapM g <;> rfl

theorem flatten_names {γ : Type*} (f : β → γ) (g : α → Option (List β)) (ks : List α) :
    ((ks.mapM g).map List.flatten).map (List.map f) =
      (ks.mapM (fun k => (g k).map (List.map f))).map List.flatten := by
  rw [← mapM_map,Option.map_map,Option.map_map]
  congr 1
  funext outs
  exact List.map_flatten

theorem cons_names {γ : Type*} (f : β → γ) (b : β) (outs : Option (List (List β))) :
    (outs.map (fun outs => b::outs.flatten)).map (List.map f) =
      ((outs.map List.flatten).map (List.map f)).map (f b::·) := by
  cases outs <;> rfl

variable {β' γ : Type*} {other : α → Option β'} {f : β → γ} {g : β' → γ}

/-- Two walks over the same children list the same of nodes that look the same. -/
theorem walk_names (h : ∀ x, (node x).map f = (other x).map g) (fuel : ℕ) (x : α) :
    (walk node kids fuel x).map (List.map f) = (walk other kids fuel x).map (List.map g) := by
  induction fuel generalizing x with
  | zero => rfl
  | succ fuel ih =>
    have hx := h x
    simp only [walk]
    cases hnode : node x with
    | none =>
      rw [hnode] at hx
      rw [Option.map_eq_none_iff.mp hx.symm]
      rfl
    | some b =>
      rw [hnode] at hx
      obtain ⟨c,hc,hbc⟩ := Option.map_eq_some_iff.mp hx.symm
      rw [hc]
      dsimp only
      rw [cons_names,cons_names,flatten_names,flatten_names,funext ih,hbc]

theorem walkAll_names (h : ∀ x, (node x).map f = (other x).map g) (fuel : ℕ) :
    (walkAll node kids fuel).map (List.map f) = (walkAll other kids fuel).map (List.map g) := by
  rw [walkAll,walkAll,flatten_names,flatten_names,funext (walk_names h fuel)]

end BlockDocs.ForestWalk
