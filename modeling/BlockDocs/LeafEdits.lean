import BlockDocs.PreOrder

/-!
# One leaf more or less in a walk

A new leaf behind a node is listed right behind all that is below the node, and a leaf that
goes leaves only its own place. Everything else is listed as it was.
-/

set_option autoImplicit false

namespace BlockDocs.LeafEdits
open BlockDocs.ParentChain BlockDocs.ForestWalk BlockDocs.PreOrder

variable {α : Type*} {kids : Option α → List α} {up : α → Option α → Prop}
variable {n fuel : ℕ} {a k x y : α} {p : Option α} {ls rs list out : List α}

/-! ## Lists of walks -/

theorem mapM_append_some {γ : Type*} {g : α → Option γ} {outs : List γ} :
    (ls++rs).mapM g = some outs ↔
      ∃ os qs, ls.mapM g = some os ∧ rs.mapM g = some qs ∧ outs = os++qs := by
  rw [List.mapM_append]
  cases hl : ls.mapM g with
  | none => simp
  | some os =>
    cases hr : rs.mapM g with
    | none => simp
    | some qs => simp [eq_comm]

theorem mapM_cons_some {γ : Type*} {g : α → Option γ} {outs : List γ} :
    (k::rs).mapM g = some outs ↔
      ∃ o qs, g k = some o ∧ rs.mapM g = some qs ∧ outs = o::qs := by
  rw [List.mapM_cons]
  cases hk : g k with
  | none => simp
  | some o =>
    cases hr : rs.mapM g with
    | none => simp
    | some qs => simp [eq_comm]

theorem mapM_same {γ : Type*} {g h : α → Option γ} (hgh : ∀ k ∈ ls, h k = g k) :
    ls.mapM h = ls.mapM g := by
  induction ls with
  | nil => rfl
  | cons k ls ih =>
    rw [List.mapM_cons,List.mapM_cons,hgh k List.mem_cons_self,
      ih (fun i hi => hgh i (List.mem_cons_of_mem k hi))]

theorem walk_eq (kids : Option α → List α) (fuel : ℕ) (x : α) : walk some kids (fuel+1) x =
    ((kids (some x)).mapM (walk some kids fuel)).map (fun outs => x::outs.flatten) := rfl

theorem walk_some (h : walk some kids (fuel+1) x = some out) : ∃ outs,
    (kids (some x)).mapM (walk some kids fuel) = some outs ∧ out = x::outs.flatten := by
  obtain ⟨outs,houts,heq⟩ := Option.map_eq_some_iff.mp h
  exact ⟨outs,houts,heq.symm⟩

theorem walk_of_kids {outs : List (List α)}
    (h : (kids (some x)).mapM (walk some kids fuel) = some outs) :
    walk some kids (fuel+1) x = some (x::outs.flatten) := by
  rw [walk_eq,h]
  rfl

theorem walkAll_nil (h : walkAll some kids fuel = some []) : kids none = [] := by
  obtain ⟨outs,houts,hflat⟩ := Option.map_eq_some_iff.mp h
  cases hks : kids none with
  | nil => rfl
  | cons k ks =>
    rw [hks] at houts
    obtain ⟨o,qs,hk,_,rfl⟩ := mapM_cons_some.mp houts
    cases fuel with
    | zero => cases hk
    | succ fuel =>
      obtain ⟨below,_,rfl⟩ := walk_some hk
      cases hflat

/-! ## Nodes and their names -/

section Names

variable {β : Type*} {node : α → Option β} {label : β → α}

/-- A walk can be made over the names alone. -/
theorem walk_labels (hl : Listed node kids up label) {b : β} (hx : node x = some b) :
    (walk node kids fuel x).map (List.map label) = walk some kids fuel x := by
  induction fuel generalizing x b with
  | zero => rfl
  | succ fuel ih =>
    have hkids : (kids (some x)).mapM (walk some kids fuel) =
        (kids (some x)).mapM (fun k => (walk node kids fuel k).map (List.map label)) := by
      apply mapM_same
      intro k hk
      obtain ⟨c,hc⟩ := hl.present k (some x) ((hl.mem _ _).mp hk)
      exact (ih hc).symm
    rw [walk_eq,hkids]
    simp only [walk,hx]
    rw [cons_names,flatten_names,hl.labelled x b hx,Option.map_map]
    rfl

theorem walkAll_labels (hl : Listed node kids up label) (fuel : ℕ) :
    (walkAll node kids fuel).map (List.map label) = walkAll some kids fuel := by
  have hroots : (kids none).mapM (walk some kids fuel) =
      (kids none).mapM (fun k => (walk node kids fuel k).map (List.map label)) := by
    apply mapM_same
    intro k hk
    obtain ⟨b,hb⟩ := hl.present k none ((hl.mem _ _).mp hk)
    exact (walk_labels hl hb).symm
  rw [walkAll,walkAll,hroots,flatten_names]

end Names

/-! ## Enough fuel -/

theorem chain_at (hf : Functional up) (h : At up n x) :
    ∃ l : List α, l.length = n+1 ∧ l.Nodup ∧ ∀ y ∈ l, ∃ m ≤ n, At up m y := by
  induction h with
  | @root x hx =>
    refine ⟨[x],rfl,List.nodup_singleton x,fun y hy => ⟨0,le_rfl,?_⟩⟩
    exact List.mem_singleton.mp hy ▸ .root hx
  | @child n x q hx hq ih =>
    obtain ⟨l,hlen,hnodup,hl⟩ := ih
    refine ⟨x::l,by simp [hlen],List.nodup_cons.mpr ⟨?_,hnodup⟩,?_⟩
    · intro hxl
      obtain ⟨m,hm,hat⟩ := hl x hxl
      have hlevel := at_unique hf hat (.child hx hq)
      omega
    · intro y hy
      rcases List.mem_cons.mp hy with rfl | hy
      · exact ⟨n+1,le_rfl,.child hx hq⟩
      · obtain ⟨m,hm,hat⟩ := hl y hy
        exact ⟨m,by omega,hat⟩

/-- There are no more levels than nodes. -/
theorem level_lt (hf : Functional up) {xs : List α} (hall : ∀ m y, At up m y → y ∈ xs)
    (h : At up n x) : n < xs.length := by
  obtain ⟨l,hlen,hnodup,hl⟩ := chain_at hf h
  have hsub : l ⊆ xs := by
    intro y hy
    obtain ⟨m,_,hat⟩ := hl y hy
    exact hall m y hat
  have hle := (hnodup.subperm hsub).length_le
  omega

/-! ## A new leaf -/

def Put (kids : Option α → List α) (a x : α) (out next : List α) : Prop :=
  ∃ before sub behind less, out = before++sub++behind ∧ walk some kids less a = some sub ∧
    next = before++sub++x::behind

section NewLeaf

variable [DecidableEq α]

/-- Walks that do not come to the changed list. -/
theorem walk_apart (hl : Listed some kids up id) (hp : ∀ q, p = some q → ¬Climbs up q y)
    (fuel : ℕ) : walk some (Function.update kids p list) fuel y = walk some kids fuel y := by
  induction fuel generalizing y with
  | zero => rfl
  | succ fuel ih =>
    have hself : some y ≠ p := fun heq => hp y heq.symm .refl
    have hkids : (kids (some y)).mapM (walk some (Function.update kids p list) fuel) =
        (kids (some y)).mapM (walk some kids fuel) := by
      apply mapM_same
      intro k hk
      apply ih
      intro q hq hclimbs
      exact hp q hq (.tail hclimbs ((hl.mem _ _).mp hk))
    rw [walk_eq,walk_eq,Function.update_of_ne hself,hkids]

/-- The list that gets the leaf, when no walk from it comes back to it. -/
theorem walks_inserted (hl : Listed some kids up id)
    (hapart : ∀ k ∈ ls++a::rs, ∀ q, p = some q → ¬Climbs up q k) (hx : kids (some x) = [])
    (hxp : some x ≠ p) {outs : List (List α)}
    (h : (ls++a::rs).mapM (walk some kids fuel) = some outs) : ∃ before sub behind,
      outs = before++sub::behind ∧ walk some kids fuel a = some sub ∧
      (ls++a::x::rs).mapM (walk some (Function.update kids p list) fuel) =
        some (before++sub::[x]::behind) := by
  obtain ⟨before,rest,hls,hrest,rfl⟩ := mapM_append_some.mp h
  obtain ⟨sub,behind,ha,hrs,rfl⟩ := mapM_cons_some.mp hrest
  have hleaf : walk some (Function.update kids p list) fuel x = some [x] := by
    cases fuel with
    | zero => cases ha
    | succ fuel =>
      rw [walk_eq,Function.update_of_ne hxp,hx]
      rfl
  have hsame : ∀ k ∈ ls++a::rs, walk some (Function.update kids p list) fuel k =
      walk some kids fuel k := fun k hk => walk_apart hl (hapart k hk) fuel
  refine ⟨before,sub,behind,rfl,ha,?_⟩
  apply mapM_append_some.mpr
  refine ⟨before,sub::[x]::behind,?_,?_,rfl⟩
  · rw [mapM_same (fun k hk => hsame k (List.mem_append_left _ hk)),hls]
  · refine mapM_cons_some.mpr ⟨sub,[x]::behind,?_,?_,rfl⟩
    · rw [hsame a (by simp),ha]
    · refine mapM_cons_some.mpr ⟨[x],behind,hleaf,?_,rfl⟩
      rw [mapM_same (fun k hk => hsame k (by simp [hk])),hrs]

omit [DecidableEq α] in
theorem put_around {out next : List α} (before behind : List α) (h : Put kids a x out next) :
    Put kids a x (before++out++behind) (before++next++behind) := by
  obtain ⟨front,sub,back,less,rfl,ha,rfl⟩ := h
  exact ⟨before++front,sub,back++behind,less,by simp,ha,by simp⟩

/-- One of the nodes is above the changed list, and the others are not. -/
theorem walks_below (hl : Listed some kids up id) {q : α} {ks : List α} {outs : List (List α)}
    (hat : ∀ k ∈ ks, At up n k) (hnodup : ks.Nodup) (hk : k ∈ ks) (hqk : Climbs up q k)
    (hput : ∀ o, walk some kids fuel k = some o → ∃ next, Put kids a x o next ∧
      walk some (Function.update kids (some q) list) fuel k = some next)
    (h : ks.mapM (walk some kids fuel) = some outs) : ∃ nexts,
      ks.mapM (walk some (Function.update kids (some q) list) fuel) = some nexts ∧
        Put kids a x outs.flatten nexts.flatten := by
  obtain ⟨front,back,rfl⟩ := List.append_of_mem hk
  have hother : ∀ i ∈ front++back,
      walk some (Function.update kids (some q) list) fuel i = walk some kids fuel i := by
    intro i hi
    have hmem : i ∈ front++k::back := by
      rcases List.mem_append.mp hi with hi | hi <;> simp [hi]
    have hne : i ≠ k := by
      rintro rfl
      exact (List.nodup_cons.mp (List.nodup_middle.mp hnodup)).1 hi
    apply walk_apart hl
    intro r hr hclimbs
    cases hr
    obtain ⟨m,hm⟩ := at_below (hat k hk) hqk
    exact hne (ancestor_unique hl.functional hm hclimbs hqk (hat i hmem) (hat k hk))
  obtain ⟨os,rest,hfront,hrest,rfl⟩ := mapM_append_some.mp h
  obtain ⟨o,qs,hko,hback,rfl⟩ := mapM_cons_some.mp hrest
  obtain ⟨next,hnext,hwalk⟩ := hput o hko
  refine ⟨os++next::qs,?_,?_⟩
  · refine mapM_append_some.mpr ⟨os,next::qs,?_,mapM_cons_some.mpr ⟨next,qs,hwalk,?_,rfl⟩,rfl⟩
    · rw [mapM_same (fun i hi => hother i (List.mem_append_left _ hi)),hfront]
    · rw [mapM_same (fun i hi => hother i (List.mem_append_right _ hi)),hback]
  · have hflat : ∀ l : List α, (os++l::qs).flatten = os.flatten++l++qs.flatten := by
      intro l
      simp
    rw [hflat,hflat]
    exact put_around _ _ hnext

theorem walk_inserted (hl : Listed some kids up id) {q : α} (hkids : kids (some q) = ls++a::rs)
    (hx : kids (some x) = []) (hxq : x ≠ q) (hy : At up n y) (hbelow : Climbs up q y)
    (h : walk some kids fuel y = some out) : ∃ next, Put kids a x out next ∧
      walk some (Function.update kids (some q) (ls++a::x::rs)) fuel y = some next := by
  induction fuel generalizing n y out with
  | zero => cases h
  | succ fuel ih =>
    obtain ⟨outs,houts,rfl⟩ := walk_some h
    have hkid : ∀ k ∈ kids (some y), At up (n+1) k := fun k hk => .child ((hl.mem _ _).mp hk) hy
    by_cases hyq : y = q
    · subst hyq
      have hapart : ∀ k ∈ ls++a::rs, ∀ q, some y = some q → ¬Climbs up q k := by
        intro k hk q hq hclimbs
        cases hq
        have hle := (climbs_level hl.functional hy hclimbs (hkid k (hkids ▸ hk))).1
        omega
      rw [hkids] at houts
      obtain ⟨before,sub,behind,rfl,ha,hnext⟩ := walks_inserted hl hapart hx
        (fun heq => hxq (Option.some.inj heq)) houts
      refine ⟨y::(before++sub::[x]::behind).flatten,
        ⟨y::before.flatten,sub,behind.flatten,fuel,by simp,ha,by simp⟩,?_⟩
      apply walk_of_kids
      rw [Function.update_self]
      exact hnext
    · obtain ⟨k,hk,hqk⟩ := ((climbs_iff_kid hl).mp hbelow).resolve_left (Ne.symm hyq)
      obtain ⟨nexts,hnexts,hput⟩ := walks_below hl hkid (hl.nodup (some y)) hk hqk
        (fun o ho => ih (hkid k hk) hqk ho) houts
      have hcons := put_around [y] [] hput
      rw [List.append_nil,List.append_nil] at hcons
      refine ⟨y::nexts.flatten,hcons,?_⟩
      apply walk_of_kids
      rw [Function.update_of_ne (fun heq => hyq (Option.some.inj heq))]
      exact hnexts

omit [DecidableEq α] in
theorem walkAll_some {outs : List (List α)} (h : (kids none).mapM (walk some kids fuel) = some outs) :
    walkAll some kids fuel = some outs.flatten := by
  rw [walkAll,h]
  rfl

/-- A new leaf is listed right behind its anchor and all that is below the anchor. -/
theorem listing_inserted (hl : Listed some kids up id) (hrooted : ∀ q, p = some q → Rooted up q)
    (hkids : kids p = ls++a::rs) (hx : kids (some x) = []) (hxp : some x ≠ p)
    (h : walkAll some kids fuel = some out) : ∃ next, Put kids a x out next ∧
      walkAll some (Function.update kids p (ls++a::x::rs)) fuel = some next := by
  obtain ⟨outs,houts,rfl⟩ := Option.map_eq_some_iff.mp h
  have hroot : ∀ k ∈ kids none, At up 0 k := fun k hk => .root ((hl.mem _ _).mp hk)
  cases p with
  | none =>
    have hapart : ∀ k ∈ ls++a::rs, ∀ q, none = some q → ¬Climbs up q k := by
      rintro k _ q ⟨⟩
    rw [hkids] at houts
    obtain ⟨before,sub,behind,rfl,ha,hnext⟩ := walks_inserted hl hapart hx hxp houts
    refine ⟨(before++sub::[x]::behind).flatten,
      ⟨before.flatten,sub,behind.flatten,fuel,by simp,ha,by simp⟩,?_⟩
    apply walkAll_some
    rw [Function.update_self]
    exact hnext
  | some q =>
    obtain ⟨k,hk,hqk⟩ := (rooted_iff_below hl).mp (hrooted q rfl)
    obtain ⟨nexts,hnexts,hput⟩ := walks_below hl hroot (hl.nodup none) hk hqk
      (fun o ho => walk_inserted hl hkids hx (fun heq => hxp (congrArg some heq)) (hroot k hk)
        hqk ho) houts
    refine ⟨nexts.flatten,hput,?_⟩
    apply walkAll_some
    rw [Function.update_of_ne (by simp)]
    exact hnexts

/-- A new root at the end. -/
theorem listing_appended (hl : Listed some kids up id) (hx : kids (some x) = [])
    (h : walkAll some kids fuel = some out) :
    walkAll some (Function.update kids none (kids none++[x])) (fuel+1) = some (out++[x]) := by
  obtain ⟨outs,houts,rfl⟩ := Option.map_eq_some_iff.mp (walkAll_more (Nat.le_succ fuel) h)
  have hleaf : walk some (Function.update kids none (kids none++[x])) (fuel+1) x = some [x] := by
    rw [walk_eq,Function.update_of_ne (by simp),hx]
    rfl
  have hsame : ∀ k ∈ kids none, walk some (Function.update kids none (kids none++[x])) (fuel+1) k =
      walk some kids (fuel+1) k := by
    intro k _
    apply walk_apart hl
    rintro q ⟨⟩
  have hflat : outs.flatten++[x] = (outs++[[x]]).flatten := by simp
  rw [hflat]
  apply walkAll_some
  rw [Function.update_self]
  refine mapM_append_some.mpr ⟨outs,[[x]],?_,mapM_cons_some.mpr ⟨[x],[],hleaf,rfl,rfl⟩,rfl⟩
  rw [mapM_same hsame,houts]

end NewLeaf

/-! ## A leaf that goes -/

section OldLeaf

variable [DecidableEq α]

theorem walks_removed {next : Option α → List α} {outs : List (List α)}
    (hleaf : ∀ o, walk some kids fuel a = some o → o = [a])
    (hother : ∀ k o, k ≠ a → walk some kids fuel k = some o →
      walk some next fuel k = some (o.filter (· ≠ a)))
    (h : ls.mapM (walk some kids fuel) = some outs) : ∃ nexts,
      (ls.filter (· ≠ a)).mapM (walk some next fuel) = some nexts ∧
        nexts.flatten = outs.flatten.filter (· ≠ a) := by
  induction ls generalizing outs with
  | nil =>
    cases h
    exact ⟨[],rfl,rfl⟩
  | cons k ls ih =>
    obtain ⟨o,os,hk,hls,rfl⟩ := mapM_cons_some.mp h
    obtain ⟨nexts,hnexts,hflat⟩ := ih hls
    by_cases hka : k = a
    · subst hka
      refine ⟨nexts,?_,?_⟩
      · rw [List.filter_cons_of_neg (by simp)]
        exact hnexts
      · rw [hflat,hleaf o hk]
        simp
    · refine ⟨o.filter (· ≠ a)::nexts,?_,?_⟩
      · rw [List.filter_cons_of_pos (by simpa using hka)]
        exact mapM_cons_some.mpr ⟨_,nexts,hother k o hka hk,hnexts,rfl⟩
      · rw [List.flatten_cons,List.flatten_cons,hflat,List.filter_append]

/-- Without the leaf the rest is listed as before. -/
theorem listing_removed {next : Option α → List α} (hleaf : kids (some a) = [])
    (hnext : ∀ o, next o = (kids o).filter (· ≠ a)) (h : walkAll some kids fuel = some out) :
    walkAll some next fuel = some (out.filter (· ≠ a)) := by
  have hself : ∀ fuel o, walk some kids fuel a = some o → o = [a] := by
    intro fuel o ho
    cases fuel with
    | zero => cases ho
    | succ fuel =>
      rw [walk_eq,hleaf] at ho
      exact (Option.some.inj ho).symm
  have hother : ∀ fuel k o, k ≠ a → walk some kids fuel k = some o →
      walk some next fuel k = some (o.filter (· ≠ a)) := by
    intro fuel
    induction fuel with
    | zero =>
      intro k o _ ho
      cases ho
    | succ fuel ih =>
      intro k o hk ho
      obtain ⟨outs,houts,rfl⟩ := walk_some ho
      obtain ⟨nexts,hnexts,hflat⟩ := walks_removed (hself fuel) ih houts
      rw [List.filter_cons_of_pos (by simpa using hk),← hflat]
      apply walk_of_kids
      rw [hnext]
      exact hnexts
  obtain ⟨outs,houts,rfl⟩ := Option.map_eq_some_iff.mp h
  obtain ⟨nexts,hnexts,hflat⟩ := walks_removed (hself fuel) (hother fuel) houts
  rw [← hflat]
  apply walkAll_some
  rw [hnext]
  exact hnexts

end OldLeaf

end BlockDocs.LeafEdits
