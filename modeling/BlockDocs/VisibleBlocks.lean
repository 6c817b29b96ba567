import BlockDocs.ClientIndex
import BlockDocs.ForestWalk
import BlockDocs.GuardedRun

/-!
# What an editor shows

The editor lists the blocks from the roots down. A block whose chain of parents
does not end in a root is in the map and nowhere on the page.
-/

set_option autoImplicit false

namespace BlockDocs.VisibleBlocks
open BlockDocs.InsertionMap BlockDocs.Wire BlockDocs.BlockStore BlockDocs.ClientRun
open BlockDocs.ClientIndex BlockDocs.ParentChain BlockDocs.ForestWalk BlockDocs.GuardedRun

/-- As far as the fuel goes, which the recursion of the source does without. -/
def flattenBlocks (fuel : ℕ) (rootOrder : List Uuid)
    (childrenMap : OrderedMap Uuid (List Uuid)) (blocks : Blocks) : Option (List Block) :=
  walkAll blocks.get (under (rootOrder,childrenMap)) fuel

def Visible (s : Store) : Prop :=
  ∃ fuel out, flattenBlocks fuel s.rootOrder s.childrenMap s.blocks = some out ∧
    out.Perm s.blocks.values

def parentIn (m : Blocks) : Uuid → Option Uuid → Prop :=
  fun x o => ∃ b, m.get x = some b ∧ b.parentId = o

def Forest (m : Blocks) : Prop := ∀ x b, m.get x = some b → Rooted (parentIn m) x

variable {m : Blocks} {s : Store} {id x : Uuid} {b : Block} {o : Option Uuid}

theorem parentIn_functional (m : Blocks) : Functional (parentIn m) := by
  rintro x o o' ⟨b,hb,rfl⟩ ⟨c,hc,rfl⟩
  rw [Option.some.inj (hb.symm.trans hc)]

theorem rebuilt_listed (hnamed : Named m) :
    Listed m.get (under (rebuildIndex m)) (parentIn m) Block.blockId where
  mem := fun o _ => by
    rw [under_rebuildIndex]
    exact (sortByPos_listing m _).1.mem_iff.trans (mem_childIds hnamed)
  nodup := fun o => by
    rw [under_rebuildIndex]
    exact (sortByPos_listing m _).1.nodup_iff.mpr (nodup_childIds hnamed o)
  present := fun _ _ h => ⟨h.choose,h.choose_spec.1⟩
  functional := parentIn_functional _
  labelled := hnamed

theorem index_listed (hidx : Indexed s) (hnamed : Named s.blocks) :
    Listed s.blocks.get (under (s.rootOrder,s.childrenMap)) (parentIn s.blocks)
      Block.blockId := by
  rw [hidx.1,hidx.2]
  exact rebuilt_listed hnamed

theorem nodup_values (hnamed : Named m) : m.values.Nodup :=
  List.Nodup.of_map Block.blockId (ids_values hnamed ▸ m.keyed)

/-- All blocks are on the page exactly when every chain of parents ends in a root. -/
theorem visible_iff_forest (hidx : Indexed s) (hnamed : Named s.blocks) :
    Visible s ↔ Forest s.blocks :=
  walkAll_perm_iff (index_listed hidx hnamed) (nodup_values hnamed) (fun _ => mem_values)

/-! ## Changes of the map -/

def Attachable (m : Blocks) (id : Uuid) (parentId : Option Uuid) : Prop :=
  ∀ p, parentId = some p → (∃ b, m.get p = some b) ∧ ¬Climbs (parentIn m) p id

theorem parentIn_set (y : Uuid) (hy : y ≠ id) (o : Option Uuid) (h : parentIn m y o) :
    parentIn (m.set id b) y o := by
  obtain ⟨c,hc,hp⟩ := h
  exact ⟨c,by rw [OrderedMap.get_set,if_neg hy]; exact hc,hp⟩

theorem parentIn_self (m : Blocks) (id : Uuid) (b : Block) :
    parentIn (m.set id b) id b.parentId :=
  ⟨b,by rw [OrderedMap.get_set,if_pos rfl],rfl⟩

theorem forest_set (h : Forest m) (hplace : Attachable m id b.parentId) :
    Forest (m.set id b) := by
  have hself : Rooted (parentIn (m.set id b)) id := by
    cases hp : b.parentId with
    | none => exact .root (hp ▸ parentIn_self m id b)
    | some p =>
      obtain ⟨⟨c,hc⟩,hout⟩ := hplace p hp
      exact .child (hp ▸ parentIn_self m id b) (rooted_outside parentIn_set (h p c hc) hout)
  intro x c hx
  rw [OrderedMap.get_set] at hx
  split at hx
  · next heq => exact heq ▸ hself
  · exact rooted_reparent parentIn_set hself (h x c hx)

/-- The children of a removed block that get its parent, or none, stay rooted. -/
theorem forest_promote (h : Forest m) (ho : o = none ∨ parentIn m id o) :
    Forest (promote id o (m.delete id)) := by
  have hget : ∀ x, (promote id o (m.delete id)).get x =
      if x = id then none else (m.get x).map (fun b =>
        if b.parentId = some id then { b with parentId := o } else b) := by
    intro x
    rw [get_promote,OrderedMap.get_delete]
    split <;> rfl
  have hother : ∀ x p, x ≠ id → parentIn m x p → p ≠ some id →
      parentIn (promote id o (m.delete id)) x p := by
    rintro x p hx ⟨b,hb,rfl⟩ hp
    exact ⟨b,by rw [hget,if_neg hx,hb,Option.map_some,if_neg hp],rfl⟩
  have hkid : ∀ x, x ≠ id → parentIn m x (some id) →
      parentIn (promote id o (m.delete id)) x o := by
    rintro x hx ⟨b,hb,hp⟩
    exact ⟨{ b with parentId := o },by rw [hget,if_neg hx,hb,Option.map_some,if_pos hp],rfl⟩
  intro x c hx
  rw [hget] at hx
  split at hx
  · cases hx
  · next hne =>
    obtain ⟨b,hb,-⟩ := Option.map_eq_some_iff.mp hx
    exact rooted_promoted (parentIn_functional m) ho hother hkid (h x b hb) hne

def Childless (m : Blocks) (id : Uuid) : Prop := ∀ x b, m.get x = some b → b.parentId ≠ some id

theorem forest_delete (h : Forest m) (hleaf : Childless m id) : Forest (m.delete id) := by
  have hkept : ∀ x, x ≠ id → ∀ o, parentIn m x o → parentIn (m.delete id) x o := by
    rintro x hx o ⟨b,hb,hp⟩
    exact ⟨b,by rw [OrderedMap.get_delete,if_neg hx]; exact hb,hp⟩
  have hnone : ∀ x, ¬parentIn m x (some id) := fun x ⟨b,hb,hp⟩ => hleaf x b hb hp
  intro x b hx
  rw [OrderedMap.get_delete] at hx
  split at hx
  · cases hx
  · next hne => exact rooted_leaf hkept hnone (h x b hx) hne

theorem forest_adjust {f : Block → Block} (hf : ∀ b, (f b).parentId = b.parentId)
    (h : Forest m) : Forest (adjust m id f) := by
  have hup : ∀ x o, parentIn m x o → parentIn (adjust m id f) x o := by
    rintro x o ⟨b,hb,hp⟩
    by_cases hx : x = id
    · subst hx
      exact ⟨f b,by rw [get_adjust,if_pos rfl,hb]; rfl,(hf b).trans hp⟩
    · exact ⟨b,by rw [get_adjust,if_neg hx]; exact hb,hp⟩
  have hpresent : ∀ x c, (adjust m id f).get x = some c → ∃ b, m.get x = some b := by
    intro x c hx
    rw [get_adjust] at hx
    split at hx
    · next heq =>
      obtain ⟨b,hb,-⟩ := Option.map_eq_some_iff.mp hx
      exact ⟨b,heq ▸ hb⟩
    · exact ⟨c,hx⟩
  intro x c hx
  obtain ⟨b,hb⟩ := hpresent x c hx
  exact rooted_transfer (h x b hb) (fun y _ o ho => hup y o ho)

/-! ## The names -/

theorem named_set (h : Named m) (hb : b.blockId = id) : Named (m.set id b) := by
  intro x c hx
  rw [OrderedMap.get_set] at hx
  split at hx
  · next heq =>
    obtain rfl := Option.some.inj hx
    exact hb.trans heq.symm
  · exact h x c hx

theorem named_delete (h : Named m) : Named (m.delete id) := by
  intro x c hx
  rw [OrderedMap.get_delete] at hx
  split at hx
  · cases hx
  · exact h x c hx

theorem named_promote (h : Named m) : Named (promote id o m) := by
  intro x c hx
  rw [get_promote] at hx
  obtain ⟨b,hb,rfl⟩ := Option.map_eq_some_iff.mp hx
  split <;> exact h x b hb

theorem named_adjust {f : Block → Block} (hf : ∀ b, (f b).blockId = b.blockId) (h : Named m) :
    Named (adjust m id f) := by
  intro x c hx
  rw [get_adjust] at hx
  split at hx
  · next heq =>
    obtain ⟨b,hb,rfl⟩ := Option.map_eq_some_iff.mp hx
    exact (hf b).trans (h x b (heq ▸ hb))
  · exact h x c hx

structure Tidy (m : Blocks) : Prop where
  named : Named m
  forest : Forest m

theorem tidy_set (h : Tidy m) (hb : b.blockId = id) (hplace : Attachable m id b.parentId) :
    Tidy (m.set id b) := ⟨named_set h.named hb,forest_set h.forest hplace⟩

theorem tidy_promote (h : Tidy m) (ho : o = none ∨ parentIn m id o) :
    Tidy (promote id o (m.delete id)) :=
  ⟨named_promote (named_delete h.named),forest_promote h.forest ho⟩

theorem tidy_delete (h : Tidy m) (hleaf : Childless m id) : Tidy (m.delete id) :=
  ⟨named_delete h.named,forest_delete h.forest hleaf⟩

theorem tidy_adjust {f : Block → Block}
    (hf : ∀ b, (f b).blockId = b.blockId ∧ (f b).parentId = b.parentId) (h : Tidy m) :
    Tidy (adjust m id f) :=
  ⟨named_adjust (fun b => (hf b).1) h.named,forest_adjust (fun b => (hf b).2) h.forest⟩

/-! ## Events -/

/-- A frame inserts and moves blocks to places that are there. -/
def OpFits (m : Blocks) (op : WireOp) : Prop :=
  match op.payload with
  | .insert _ parentId _ _ _ => Attachable m op.blockId parentId
  | .move parentId _ _ => m.get op.blockId ≠ none → Attachable m op.blockId parentId
  | _ => True

/-- A refusal removes no block that has children, and what it brings is the
block it names, in a place that is there. -/
def ConflictFits (m : Blocks) (c : ConflictInfo) : Prop :=
  ∀ id, c.blockId = .uuid id →
    match c.current with
    | some current => current.blockId = id ∧ Attachable m id current.parentId
    | none => Childless m id

structure SnapshotForest (blocks : List Block) : Prop where
  distinct : (blocks.map Block.blockId).Nodup
  rooted : ∀ b ∈ blocks,
    Rooted (fun x o => ∃ c ∈ blocks, c.blockId = x ∧ c.parentId = o) b.blockId

def Fits (s : Store) : ClientEvent → Prop
  | .loadSnapshot _ blocks _ => SnapshotForest blocks
  | .insertBlock blockId _ parentId _ _ => Attachable s.blocks blockId parentId
  | .moveBlock blockId parentId _ =>
    s.blocks.get blockId ≠ none → Attachable s.blocks blockId parentId
  | .applyRemoteOps ops _ => Along (fun m op => some (applyRemoteOp m op)) OpFits s.blocks ops
  | .handleNack _ conflicts => Along (fun m c => some (reject m c)) ConflictFits s.blocks conflicts
  | _ => True

theorem tidy_snapshot {blocks : List Block} (h : SnapshotForest blocks) (docId : DocId)
    (lastStreamId : StreamId) : Tidy (Store.loadSnapshot docId blocks lastStreamId).blocks := by
  have hget : ∀ x, (Store.loadSnapshot docId blocks lastStreamId).blocks.get x =
      blocks.find? (fun b => b.blockId = x) := by
    intro x
    refine (get_loaded blocks h.distinct OrderedMap.empty x).trans ?_
    rw [OrderedMap.get_empty,Option.or_none]
  have hfound : ∀ c ∈ blocks, blocks.find? (fun b => b.blockId = c.blockId) = some c := by
    intro c hc
    have hsome : (blocks.find? (fun b => b.blockId = c.blockId)).isSome := by
      rw [List.find?_isSome]
      exact ⟨c,hc,decide_eq_true rfl⟩
    obtain ⟨d,hd⟩ := Option.isSome_iff_exists.mp hsome
    have hid : d.blockId = c.blockId := by simpa using List.find?_some hd
    rw [hd,List.inj_on_of_nodup_map h.distinct (List.mem_of_find?_eq_some hd) hc hid]
  constructor
  · intro x b hx
    rw [hget] at hx
    simpa using List.find?_some hx
  · intro x b hx
    rw [hget] at hx
    have hid : b.blockId = x := by simpa using List.find?_some hx
    rw [← hid]
    refine rooted_transfer (h.rooted b (List.mem_of_find?_eq_some hx)) ?_
    rintro y _ o ⟨c,hc,rfl,hp⟩
    exact ⟨c,(hget _).trans (hfound c hc),hp⟩

theorem tidy_remote (h : Tidy m) (op : WireOp) (hfits : OpFits m op) :
    Tidy (applyRemoteOp m op) := by
  unfold OpFits at hfits
  unfold applyRemoteOp
  split
  · next hp => exact tidy_set h rfl (by rw [hp] at hfits; exact hfits)
  · exact tidy_promote h (Or.inl rfl)
  · next parentId position depth hp =>
    rw [hp] at hfits
    unfold adjust
    split
    · exact h
    · next b hb =>
      exact tidy_set h (h.named _ b hb) (hfits (by rw [hb]; exact Option.some_ne_none b))
  · exact tidy_adjust (fun _ => ⟨rfl,rfl⟩) h
  · exact tidy_adjust (fun _ => ⟨rfl,rfl⟩) h

theorem tidy_reject (h : Tidy m) (c : ConflictInfo) (hfits : ConflictFits m c) :
    Tidy (reject m c) := by
  unfold reject
  split
  · next id hid =>
    have hplace := hfits id hid
    split
    · next current hcurrent =>
      rw [hcurrent] at hplace
      exact tidy_set h hplace.1 hplace.2
    · next hcurrent =>
      rw [hcurrent] at hplace
      exact tidy_delete h hplace
  · exact h

theorem tidy_acknowledge (h : Tidy m) (results : List OpResult) :
    Tidy (results.foldl acknowledge m) := by
  induction results generalizing m with
  | nil => exact h
  | cons r results ih => exact ih (tidy_adjust (fun _ => ⟨rfl,rfl⟩) h)

theorem tidy_step (h : Tidy s.blocks) (e : ClientEvent) (hfits : Fits s e) :
    Tidy (clientStep s e).blocks := by
  cases e with
  | loadSnapshot docId blocks lastStreamId => exact tidy_snapshot hfits docId lastStreamId
  | resetDoc => exact ⟨nofun,nofun⟩
  | insertBlock blockId type parentId afterId content => exact tidy_set h rfl hfits
  | deleteBlock blockId =>
    simp only [clientStep,Store.deleteBlock]
    split
    · exact h
    · next existing hget => exact tidy_promote h (Or.inr ⟨existing,hget,rfl⟩)
  | moveBlock blockId parentId afterId =>
    simp only [clientStep,Store.moveBlock]
    split
    · exact h
    · next existing hget =>
      exact tidy_set h (h.named _ existing hget)
        (hfits (by rw [hget]; exact Option.some_ne_none existing))
  | updateAttrs blockId attrs =>
    simp only [clientStep,Store.updateAttrs]
    split
    · exact h
    · next b hget =>
      have hset : s.blocks.set blockId { b with content := spreadAttrs b.content attrs } =
          adjust s.blocks blockId (fun d => { d with content := spreadAttrs d.content attrs }) := by
        rw [adjust,hget]
      exact hset ▸ tidy_adjust (fun _ => ⟨rfl,rfl⟩) h
  | updateContent blockId content =>
    simp only [clientStep,Store.updateContent]
    split
    · exact h
    · next b hget =>
      have hset : s.blocks.set blockId { b with content := content } =
          adjust s.blocks blockId (fun d => { d with content := content }) := by
        rw [adjust,hget]
      exact hset ▸ tidy_adjust (fun _ => ⟨rfl,rfl⟩) h
  | applyRemoteOps ops streamId =>
    have hfold : Tidy (ops.foldl applyRemoteOp s.blocks) :=
      fold_of_along (P := Tidy) (fun _ op hm hc => tidy_remote hm op hc) h hfits
    exact hfold
  | handleAck clientSeq results => exact tidy_acknowledge h results
  | handleNack clientSeq conflicts =>
    have hfold : Tidy (conflicts.foldl reject s.blocks) :=
      fold_of_along (P := Tidy) (fun _ c hm hc => tidy_reject hm c hc) h hfits
    exact hfold

/-- From a snapshot that is a forest on, all blocks stay on the page as long as
every event fits. -/
theorem visible_throughout {blocks : List Block} (hsnapshot : SnapshotForest blocks)
    (docId : DocId) (lastStreamId : StreamId) (events : List ClientEvent)
    (hfits : Along (fun s e => some (clientStep s e)) Fits
      (Store.loadSnapshot docId blocks lastStreamId) events) :
    Throughout (fun s e => some (clientStep s e)) Visible
      (Store.loadSnapshot docId blocks lastStreamId) events := by
  have hthroughout : Throughout (fun s e => some (clientStep s e))
      (fun s => Indexed s ∧ Tidy s.blocks) (Store.loadSnapshot docId blocks lastStreamId) events := by
    refine throughout_of_along ?_ ⟨⟨rfl,rfl⟩,tidy_snapshot hsnapshot docId lastStreamId⟩ hfits
    rintro s e t ⟨hidx,htidy⟩ hstep hc
    obtain rfl := Option.some.inj hstep
    exact ⟨step_indexed hidx e,tidy_step htidy e hc⟩
  refine throughout_mono ?_ hthroughout
  rintro s ⟨hidx,htidy⟩
  exact (visible_iff_forest hidx htidy.named).mpr htidy.forest

def rootBlock : Block where
  blockId := 1
  parentId := none
  position := []
  depth := 0
  type := "paragraph"
  content := []
  version := 1

/-- A block is inserted under the one of the snapshot, which moves on its own. -/
theorem visible_after_insert : Throughout (fun s e => some (clientStep s e)) Visible
    (Store.loadSnapshot 1 [rootBlock] (toLex (0,0)))
    [.insertBlock 2 "paragraph" (some 1) none none,.moveBlock 1 none none] := by
  refine visible_throughout ⟨by decide,?_⟩ 1 (toLex (0,0)) _ ?_
  · intro b hb
    rw [List.mem_singleton.mp hb]
    exact .root ⟨rootBlock,List.mem_singleton_self _,rfl,rfl⟩
  · refine along_cons rfl ?_ (along_cons rfl ?_ trivial)
    · rintro p hp
      obtain rfl := Option.some.inj hp
      refine ⟨⟨rootBlock,rfl⟩,fun hclimbs => ?_⟩
      rcases Relation.ReflTransGen.cases_head hclimbs with heq | ⟨q,⟨b,hb,hq⟩,_⟩
      · exact absurd heq (by decide)
      · obtain rfl := Option.some.inj hb
        cases hq
    · exact fun _ p hp => nomatch hp

theorem rooted_up (h : Rooted (parentIn m) x) : ∃ o, parentIn m x o := by
  cases h with
  | root hx => exact ⟨none,hx⟩
  | child hx _ => exact ⟨_,hx⟩

def nestedThen (e : ClientEvent) : Store :=
  clientStep (clientStep (clientStep (Store.loadSnapshot 1 [] (toLex (0,0)))
    (.insertBlock 1 "paragraph" none none none))
    (.insertBlock 2 "paragraph" (some 1) none none)) e

/-- The insert of the upper block is refused, or the upper block is moved under
the lower one: the lower block is in the map and not on the page. -/
theorem lower_block_hidden :
    (∃ b, (nestedThen (.handleNack 1 [⟨.uuid 1,some "api_unreachable",none⟩])).blocks.get 2 =
        some b) ∧
      ¬Visible (nestedThen (.handleNack 1 [⟨.uuid 1,some "api_unreachable",none⟩])) ∧
    (∃ b, (nestedThen (.moveBlock 1 (some 2) none)).blocks.get 2 = some b) ∧
      ¬Visible (nestedThen (.moveBlock 1 (some 2) none)) := by
  refine ⟨⟨_,rfl⟩,?_,⟨_,rfl⟩,?_⟩
  · have hnamed : Named (nestedThen
        (.handleNack 1 [⟨.uuid 1,some "api_unreachable",none⟩])).blocks :=
      named_delete (named_set (named_set nofun rfl) rfl)
    rw [visible_iff_forest ⟨rfl,rfl⟩ hnamed]
    intro hforest
    have hlower : Rooted _ 2 := hforest 2 _ rfl
    cases hlower with
    | root hx =>
      obtain ⟨b,hb,hp⟩ := hx
      obtain rfl := Option.some.inj hb
      cases hp
    | child hx hupper =>
      obtain ⟨b,hb,hp⟩ := hx
      obtain rfl := Option.some.inj hb
      obtain rfl := Option.some.inj hp
      obtain ⟨o,c,hc,_⟩ := rooted_up hupper
      cases hc
  · have hnamed : Named (nestedThen (.moveBlock 1 (some 2) none)).blocks :=
      named_set (named_set (named_set nofun rfl) rfl) rfl
    rw [visible_iff_forest ⟨rfl,rfl⟩ hnamed]
    intro hforest
    refine rooted_not_own_ancestor (parentIn_functional _) (hforest 2 _ rfl) ?_
    exact .tail (.single (show Parent _ 2 1 from ⟨_,rfl,rfl⟩)) ⟨_,rfl,rfl⟩

end BlockDocs.VisibleBlocks
