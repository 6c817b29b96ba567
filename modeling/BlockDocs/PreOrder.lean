import BlockDocs.ForestWalk

/-!
# The order of a walk

A node stands right before all that is below it, and the children of one parent stand
in the order of their list. More fuel changes nothing once a walk has ended.
-/

set_option autoImplicit false

namespace BlockDocs.PreOrder
open BlockDocs.ParentChain BlockDocs.ForestWalk

variable {α β : Type*} {node : α → Option β} {kids : Option α → List α}
variable {up : α → Option α → Prop} {label : β → α} {le : β → β → Prop}
variable {n m : ℕ} {x y z k i : α} {o q : Option α}

/-! ## More fuel -/

theorem mapM_mono {γ : Type*} {g h : α → Option γ} {ks : List α} {outs : List γ}
    (hgh : ∀ k out, g k = some out → h k = some out) (hg : ks.mapM g = some outs) :
    ks.mapM h = some outs := by
  induction ks generalizing outs with
  | nil => exact hg
  | cons k ks ih =>
    rw [List.mapM_cons] at hg ⊢
    obtain ⟨out,hout,hrest⟩ := Option.bind_eq_some_iff.mp hg
    obtain ⟨rest,hks,heq⟩ := Option.bind_eq_some_iff.mp hrest
    rw [hgh k out hout,Option.bind_eq_bind,Option.bind_some,ih hks]
    exact heq

theorem walk_succ {fuel : ℕ} {out : List β} (h : walk node kids fuel x = some out) :
    walk node kids (fuel+1) x = some out := by
  induction fuel generalizing x out with
  | zero => cases h
  | succ fuel ih =>
    rw [walk] at h ⊢
    split at h
    · exact h
    · obtain ⟨outs,houts,heq⟩ := Option.map_eq_some_iff.mp h
      rw [mapM_mono (fun _ _ => ih) houts]
      exact congrArg some heq

theorem walk_more {fuel more : ℕ} {out : List β} (hle : fuel ≤ more)
    (h : walk node kids fuel x = some out) : walk node kids more x = some out := by
  induction hle with
  | refl => exact h
  | step _ ih => exact walk_succ ih

theorem walkAll_more {fuel more : ℕ} {out : List β} (hle : fuel ≤ more)
    (h : walkAll node kids fuel = some out) : walkAll node kids more = some out := by
  obtain ⟨outs,houts,heq⟩ := Option.map_eq_some_iff.mp h
  rw [walkAll,mapM_mono (fun _ _ => walk_more hle) houts]
  exact congrArg some heq

/-- However much fuel a walk had, it lists what is below its node. -/
theorem ended_covers (hl : Listed node kids up label) {N : ℕ} (hN : ∀ n x, At up n x → n ≤ N)
    (hx : At up n x) {fuel : ℕ} {out : List β} (h : walk node kids fuel x = some out) :
    Covers node (fun y => Climbs up y x) out := by
  obtain ⟨full,hfull,hcovers⟩ := walk_covers hl hN (N+1) hx (by omega)
  have hsame : full = out := Option.some.inj
    ((walk_more (le_max_left _ _) hfull).symm.trans (walk_more (le_max_right _ _) h))
  exact hsame ▸ hcovers

/-! ## Subtrees -/

theorem walk_subtree (hl : Listed node kids up label) {fuel : ℕ} {out : List β} {c : β}
    (h : walk node kids fuel x = some out) (hc : c ∈ out) :
    ∃ y less below, node y = some c ∧ Climbs up y x ∧
      walk node kids less y = some (c::below) ∧ c::below <:+: out := by
  induction fuel generalizing x out with
  | zero => cases h
  | succ fuel ih =>
    have hwalk := h
    rw [walk] at h
    split at h
    · obtain rfl := Option.some.inj h
      cases hc
    · next d hd =>
      obtain ⟨outs,houts,rfl⟩ := Option.map_eq_some_iff.mp h
      rcases List.mem_cons.mp hc with rfl | hc
      · exact ⟨x,fuel+1,outs.flatten,hd,.refl,hwalk,List.infix_rfl⟩
      · obtain ⟨rest,hrest,hcrest⟩ := List.mem_flatten.mp hc
        obtain ⟨k,hk,hkid⟩ := mapM_mem houts hrest
        obtain ⟨y,less,below,hy,hyk,hbelow,hpiece⟩ := ih hkid hcrest
        exact ⟨y,less,below,hy,(climbs_iff_kid hl).mpr (Or.inr ⟨k,hk,hyk⟩),hbelow,
          List.infix_cons (hpiece.trans (List.infix_of_mem_flatten hrest))⟩

/-! ## Siblings -/

theorem sibling_at (hf : Functional up) (hx : At up n x) (ho : up x o) (ho' : up y o) :
    At up n y := by
  cases hx with
  | root hroot =>
    obtain rfl := hf _ _ _ ho hroot
    exact .root ho'
  | child hp hat =>
    obtain rfl := hf _ _ _ ho hp
    exact .child ho' hat

/-- Of what is below two siblings, only the two have a common parent. -/
theorem siblings_apart (hf : Functional up) (hk : At up m k) (hi : At up m i) (hne : k ≠ i)
    (hyk : Climbs up y k) (hzi : Climbs up z i) (hyo : up y q) (hzo : up z q) :
    y = k ∧ z = i := by
  obtain ⟨n,hy⟩ := at_below hk hyk
  have hz := sibling_at hf hy hyo hzo
  rcases Relation.ReflTransGen.cases_head hyk with rfl | ⟨p,hp,hpk⟩
  · obtain rfl := at_unique hf hy hk
    exact ⟨rfl,((climbs_level hf hz hzi hi).2 rfl).symm⟩
  · rcases Relation.ReflTransGen.cases_head hzi with rfl | ⟨p',hp',hpi⟩
    · obtain rfl := at_unique hf hz hi
      exact ⟨((climbs_level hf hy hyk hk).2 rfl).symm,rfl⟩
    · -- the common parent is then below both
      obtain rfl := Option.some.inj ((hf _ _ _ hyo hp).symm.trans (hf _ _ _ hzo hp'))
      obtain ⟨l,hl⟩ := at_below hk hpk
      exact absurd (ancestor_unique hf hl hpk hpi hk hi) hne

theorem below_no_sibling (hf : Functional up) (hx : At up n x) (hk : up k (some x))
    (hyk : Climbs up y k) (hyo : up y q) : ¬up x q := by
  intro hxo
  have hlevel := (climbs_level hf (sibling_at hf hx hxo hyo) hyk (.child hk hx)).1
  omega

def SiblingsSorted (up : α → Option α → Prop) (label : β → α) (le : β → β → Prop)
    (out : List β) : Prop :=
  out.Pairwise (fun b c => ∀ o, up (label b) o → up (label c) o → le b c)

def KidsSorted (node : α → Option β) (kids : Option α → List α) (le : β → β → Prop) : Prop :=
  ∀ o, (kids o).Pairwise (fun k i => ∀ b c, node k = some b → node i = some c → le b c)

theorem walks_sorted (hl : Listed node kids up label) {ks : List α} (hks : ∀ k ∈ ks, At up m k)
    (hnodup : ks.Nodup)
    (hle : ks.Pairwise (fun k i => ∀ b c, node k = some b → node i = some c → le b c))
    {fuel : ℕ} {outs : List (List β)} (houts : ks.mapM (walk node kids fuel) = some outs)
    (h : ∀ k ∈ ks, ∀ out, walk node kids fuel k = some out → SiblingsSorted up label le out) :
    SiblingsSorted up label le outs.flatten := by
  induction ks generalizing outs with
  | nil =>
    cases houts
    exact List.Pairwise.nil
  | cons k ks ih =>
    obtain ⟨hnew,hrest⟩ := List.nodup_cons.mp hnodup
    obtain ⟨hfirst,hothers⟩ := List.pairwise_cons.mp hle
    rw [List.mapM_cons] at houts
    obtain ⟨out,hout,htail⟩ := Option.bind_eq_some_iff.mp houts
    obtain ⟨rest,hmap,heq⟩ := Option.bind_eq_some_iff.mp htail
    obtain rfl := Option.some.inj heq
    refine List.pairwise_append.mpr ⟨h k List.mem_cons_self out hout,?_,?_⟩
    · exact ih (fun i hi => hks i (List.mem_cons_of_mem _ hi)) hrest hothers hmap
        (fun i hi => h i (List.mem_cons_of_mem _ hi))
    · intro b hb c hc o hbo hco
      obtain ⟨y,hy,hyk⟩ := walk_below hl hout hb
      obtain ⟨outi,houti,hci⟩ := List.mem_flatten.mp hc
      obtain ⟨i,hi,hwalk⟩ := mapM_mem hmap houti
      obtain ⟨z,hz,hzi⟩ := walk_below hl hwalk hci
      rw [hl.labelled y b hy] at hbo
      rw [hl.labelled z c hz] at hco
      have hne : k ≠ i := fun heq => hnew (heq ▸ hi)
      obtain ⟨rfl,rfl⟩ := siblings_apart hl.functional (hks k List.mem_cons_self)
        (hks i (List.mem_cons_of_mem _ hi)) hne hyk hzi hbo hco
      exact hfirst z hi b c hy hz

theorem walk_sorted (hl : Listed node kids up label) (hle : KidsSorted node kids le) {fuel : ℕ}
    {out : List β} (hx : At up n x) (h : walk node kids fuel x = some out) :
    SiblingsSorted up label le out := by
  induction fuel generalizing n x out with
  | zero => cases h
  | succ fuel ih =>
    rw [walk] at h
    split at h
    · obtain rfl := Option.some.inj h
      exact List.Pairwise.nil
    · next b hb =>
      obtain ⟨outs,houts,rfl⟩ := Option.map_eq_some_iff.mp h
      have hkid : ∀ k ∈ kids (some x), At up (n+1) k :=
        fun k hk => .child ((hl.mem _ _).mp hk) hx
      refine List.pairwise_cons.mpr ⟨?_,?_⟩
      · intro c hc o hbo hco
        obtain ⟨outk,houtk,hck⟩ := List.mem_flatten.mp hc
        obtain ⟨k,hk,hwalk⟩ := mapM_mem houts houtk
        obtain ⟨y,hy,hyk⟩ := walk_below hl hwalk hck
        rw [hl.labelled x b hb] at hbo
        rw [hl.labelled y c hy] at hco
        exact absurd hbo (below_no_sibling hl.functional hx ((hl.mem _ _).mp hk) hyk hco)
      · exact walks_sorted hl hkid (hl.nodup _) (hle _) houts (fun k hk _ => ih (hkid k hk))

/-! ## The walk from all roots -/

/-- The rooted nodes, each once and right before what is below it, with siblings in order. -/
structure PreOrdered (node : α → Option β) (up : α → Option α → Prop) (label : β → α)
    (le : β → β → Prop) (out : List β) : Prop where
  covers : Covers node (Rooted up) out
  subtree : ∀ c ∈ out, ∃ below, c::below <:+: out ∧
    Covers node (fun y => Climbs up y (label c)) (c::below)
  siblings : SiblingsSorted up label le out

theorem walkAll_preOrdered (hl : Listed node kids up label) (hle : KidsSorted node kids le)
    {N : ℕ} (hN : ∀ n x, At up n x → n ≤ N) :
    ∃ out, (∀ fuel, N < fuel → walkAll node kids fuel = some out) ∧
      PreOrdered node up label le out := by
  obtain ⟨out,hout,hcovers⟩ := walkAll_covers hl hN
  refine ⟨out,fun fuel hfuel => walkAll_more hfuel hout,hcovers,?_,?_⟩
  all_goals obtain ⟨outs,houts,rfl⟩ := Option.map_eq_some_iff.mp hout
  · intro c hc
    obtain ⟨rest,hrest,hcrest⟩ := List.mem_flatten.mp hc
    obtain ⟨k,hk,hwalk⟩ := mapM_mem houts hrest
    obtain ⟨y,less,below,hy,hyk,hbelow,hpiece⟩ := walk_subtree hl hwalk hcrest
    obtain ⟨n,hn⟩ := at_below (At.root ((hl.mem _ _).mp hk)) hyk
    rw [hl.labelled y c hy]
    exact ⟨below,hpiece.trans (List.infix_of_mem_flatten hrest),ended_covers hl hN hn hbelow⟩
  · have hroot : ∀ k ∈ kids none, At up 0 k := fun k hk => .root ((hl.mem _ _).mp hk)
    exact walks_sorted hl hroot (hl.nodup _) (hle _) houts
      (fun k hk _ => walk_sorted hl hle (hroot k hk))

end BlockDocs.PreOrder
