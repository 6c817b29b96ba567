import BlockDocs.ClientRun
import BlockDocs.SortedListing

/-!
# The index of a client

The store keeps the ids of the root blocks and of the children of every block in
the order of their positions. A local insert or move takes its rank from that order.
-/

set_option autoImplicit false

namespace BlockDocs.ClientIndex
open BlockDocs.InsertionMap BlockDocs.LexoRank BlockDocs.Wire BlockDocs.BlockStore
open BlockDocs.ClientRun BlockDocs.SortedListing

/-! ## The index follows the map -/

def Indexed (s : Store) : Prop :=
  s.rootOrder = (rebuildIndex s.blocks).1 ∧ s.childrenMap = (rebuildIndex s.blocks).2

def Unplaced (f : Block → Block) : Prop :=
  ∀ b, (f b).blockId = b.blockId ∧ (f b).parentId = b.parentId ∧ (f b).position = b.position

theorem indexed_mapValues {f : Uuid → Block → Block} (hf : ∀ id, Unplaced (f id)) (m : Blocks) :
    rebuildIndex (m.mapValues f) = rebuildIndex m := by
  have hposition : positionOf (m.mapValues f) = positionOf m := by
    funext id
    rw [positionOf,positionOf,OrderedMap.get_mapValues,Option.map_map]
    congr 2
    funext b
    exact (hf id b).2.2
  have hsort : sortByPos (m.mapValues f) = sortByPos m := by
    funext ids
    simp only [sortByPos,hposition]
  have hfold : ∀ (es : List (Uuid × Block)) (idx : List Uuid × OrderedMap Uuid (List Uuid)),
      ((es.map (fun e => (e.1,f e.1 e.2))).map Prod.snd).foldl indexBlock idx =
        (es.map Prod.snd).foldl indexBlock idx := by
    intro es
    induction es with
    | nil => exact fun _ => rfl
    | cons e es ih =>
      intro idx
      have hone : indexBlock idx (f e.1 e.2) = indexBlock idx e.2 := by
        obtain ⟨hid,hparent,_⟩ := hf e.1 e.2
        rw [indexBlock,indexBlock,hid,hparent]
      simp only [List.map_cons,List.foldl_cons,hone]
      exact ih _
  have hvalues : (m.mapValues f).values.foldl indexBlock ([],.empty) =
      m.values.foldl indexBlock ([],.empty) := hfold m.entries _
  rw [rebuildIndex,rebuildIndex,hvalues,hsort]

theorem indexed_set {f : Block → Block} (hf : Unplaced f) {m : Blocks} {id : Uuid} {b : Block}
    (h : m.get id = some b) : rebuildIndex (m.set id (f b)) = rebuildIndex m := by
  rw [OrderedMap.set_present h]
  apply indexed_mapValues
  intro j c
  split
  · exact hf c
  · exact ⟨rfl,rfl,rfl⟩

theorem indexed_acknowledge (m : Blocks) (r : OpResult) :
    rebuildIndex (acknowledge m r) = rebuildIndex m := by
  unfold acknowledge adjust
  cases h : m.get r.blockId with
  | none => rfl
  | some b =>
    exact indexed_set (f := fun b => { b with version := r.newVersion }) (fun _ => ⟨rfl,rfl,rfl⟩) h

theorem indexed_acknowledged (results : List OpResult) (m : Blocks) :
    rebuildIndex (results.foldl acknowledge m) = rebuildIndex m := by
  induction results generalizing m with
  | nil => rfl
  | cons r results ih => exact (ih _).trans (indexed_acknowledge m r)

theorem indexed_content {m : Blocks} {id : Uuid} {b : Block} (h : m.get id = some b)
    (content : JsonObj) :
    rebuildIndex (m.set id { b with content := content }) = rebuildIndex m :=
  indexed_set (f := fun b => { b with content := content }) (fun _ => ⟨rfl,rfl,rfl⟩) h

theorem indexed_blocks {s t : Store} (h : Indexed s) (hroot : t.rootOrder = s.rootOrder)
    (hchildren : t.childrenMap = s.childrenMap)
    (hindex : rebuildIndex t.blocks = rebuildIndex s.blocks) : Indexed t :=
  ⟨hroot.trans (h.1.trans (congrArg Prod.fst hindex.symm)),
    hchildren.trans (h.2.trans (congrArg Prod.snd hindex.symm))⟩

theorem step_indexed {s : Store} (h : Indexed s) (e : ClientEvent) : Indexed (clientStep s e) := by
  cases e with
  | loadSnapshot docId blocks lastStreamId => exact ⟨rfl,rfl⟩
  | resetDoc => exact ⟨rfl,rfl⟩
  | insertBlock blockId type parentId afterId content => exact ⟨rfl,rfl⟩
  | deleteBlock blockId =>
    simp only [clientStep,Store.deleteBlock]
    split
    · exact h
    · exact ⟨rfl,rfl⟩
  | moveBlock blockId parentId afterId =>
    simp only [clientStep,Store.moveBlock]
    split
    · exact h
    · exact ⟨rfl,rfl⟩
  | updateAttrs blockId attrs =>
    simp only [clientStep,Store.updateAttrs]
    split
    · exact h
    · next b hget => exact indexed_blocks h rfl rfl (indexed_content hget _)
  | updateContent blockId content =>
    simp only [clientStep,Store.updateContent]
    split
    · exact h
    · next b hget => exact indexed_blocks h rfl rfl (indexed_content hget _)
  | applyRemoteOps ops streamId => exact ⟨rfl,rfl⟩
  | handleAck clientSeq results => exact indexed_blocks h rfl rfl (indexed_acknowledged results _)
  | handleNack clientSeq conflicts => exact ⟨rfl,rfl⟩

theorem run_indexed (events : List ClientEvent) : Indexed (clientRun events) := by
  have hfold : ∀ s, Indexed s → Indexed (events.foldl clientStep s) := by
    induction events with
    | nil => exact fun _ h => h
    | cons e es ih => exact fun s h => ih _ (step_indexed h e)
  exact hfold .initial ⟨rfl,rfl⟩

/-! ## The ids under a parent -/

def under (idx : List Uuid × OrderedMap Uuid (List Uuid)) : Option Uuid → List Uuid
  | none => idx.1
  | some p => (idx.2.get p).getD []

def idsUnder (s : Store) (parentId : Option Uuid) : List Uuid :=
  under (s.rootOrder,s.childrenMap) parentId

def childIds (m : Blocks) (parentId : Option Uuid) : List Uuid :=
  (m.values.filter (fun b => b.parentId = parentId)).map Block.blockId

theorem under_indexBlock (idx : List Uuid × OrderedMap Uuid (List Uuid)) (b : Block)
    (parentId : Option Uuid) : under (indexBlock idx b) parentId =
      under idx parentId++if b.parentId = parentId then [b.blockId] else [] := by
  unfold indexBlock
  cases hb : b.parentId with
  | none => cases parentId <;> simp [under]
  | some p =>
    cases parentId with
    | none => simp [under]
    | some q =>
      by_cases hq : q = p
      · simp [under,hq]
      · simp [under,hq,Ne.symm hq]

theorem under_indexed (bs : List Block) (idx : List Uuid × OrderedMap Uuid (List Uuid))
    (parentId : Option Uuid) : under (bs.foldl indexBlock idx) parentId =
      under idx parentId++(bs.filter (fun b => b.parentId = parentId)).map Block.blockId := by
  induction bs generalizing idx with
  | nil => simp
  | cons b bs ih =>
    rw [List.foldl_cons,ih,under_indexBlock]
    by_cases hb : b.parentId = parentId <;> simp [hb]

theorem under_rebuildIndex (m : Blocks) (parentId : Option Uuid) :
    under (rebuildIndex m) parentId = sortByPos m (childIds m parentId) := by
  have hids := under_indexed m.values ([],.empty) parentId
  cases parentId with
  | none =>
    simp only [under,List.nil_append] at hids
    simp only [under,rebuildIndex,hids,childIds]
  | some p =>
    simp only [under,OrderedMap.get_empty,Option.getD_none,List.nil_append] at hids
    simp only [under,rebuildIndex,OrderedMap.get_mapValues,childIds,← hids]
    cases (m.values.foldl indexBlock ([],.empty)).2.get p with
    | none => rfl
    | some ids => rfl

theorem sortByPos_listing (m : Blocks) (ids : List Uuid) :
    Listing (positionOf m) ids (sortByPos m ids) :=
  ⟨List.perm_insertionSort _ _,List.pairwise_insertionSort _ _⟩

theorem idsUnder_listing {s : Store} (h : Indexed s) (parentId : Option Uuid) :
    Listing (positionOf s.blocks) (childIds s.blocks parentId) (idsUnder s parentId) := by
  have hidx : idsUnder s parentId = sortByPos s.blocks (childIds s.blocks parentId) := by
    rw [idsUnder,h.1,h.2]
    exact under_rebuildIndex s.blocks parentId
  rw [hidx]
  exact sortByPos_listing _ _

def Named (m : Blocks) : Prop := ∀ id b, m.get id = some b → b.blockId = id

theorem mem_values {m : Blocks} {b : Block} : b ∈ m.values ↔ ∃ id, m.get id = some b := by
  constructor
  · intro hb
    obtain ⟨e,he,rfl⟩ := List.mem_map.mp hb
    exact ⟨e.1,lookup_of_mem m.keyed he⟩
  · rintro ⟨id,hid⟩
    obtain ⟨e,he,rfl⟩ := Option.map_eq_some_iff.mp hid
    exact List.mem_map.mpr ⟨e,List.mem_of_find?_eq_some he,rfl⟩

theorem mem_childIds {m : Blocks} (h : Named m) {parentId : Option Uuid} {id : Uuid} :
    id ∈ childIds m parentId ↔ ∃ b, m.get id = some b ∧ b.parentId = parentId := by
  simp only [childIds,List.mem_map,List.mem_filter,decide_eq_true_eq,mem_values]
  constructor
  · rintro ⟨b,⟨⟨j,hj⟩,hp⟩,rfl⟩
    exact ⟨b,by rw [h j b hj]; exact hj,hp⟩
  · rintro ⟨b,hb,hp⟩
    exact ⟨b,⟨⟨id,hb⟩,hp⟩,h id b hb⟩

theorem ids_values {m : Blocks} (h : Named m) :
    m.values.map Block.blockId = m.entries.map Prod.fst := by
  rw [OrderedMap.values,List.map_map]
  apply List.map_congr_left
  exact fun e he => h e.1 e.2 (lookup_of_mem m.keyed he)

theorem nodup_childIds {m : Blocks} (h : Named m) (parentId : Option Uuid) :
    (childIds m parentId).Nodup := by
  have hall : (m.values.map Block.blockId).Nodup := ids_values h ▸ m.keyed
  exact hall.sublist (List.filter_sublist.map _)

/-! ## The children of a parent in the order of the index -/

def kids (s : Store) (parentId : Option Uuid) : List Block :=
  (idsUnder s parentId).filterMap s.blocks.get

def InOrder (ks : List Block) : Prop := ks.Pairwise (fun a b => a.position ≤ b.position)

variable {s : Store} {parentId : Option Uuid}

theorem mem_kids (hidx : Indexed s) (hnamed : Named s.blocks) {b : Block} :
    b ∈ kids s parentId ↔ s.blocks.get b.blockId = some b ∧ b.parentId = parentId := by
  have hmem : ∀ id, id ∈ idsUnder s parentId ↔
      ∃ b, s.blocks.get id = some b ∧ b.parentId = parentId :=
    fun id => (idsUnder_listing hidx parentId).1.mem_iff.trans (mem_childIds hnamed)
  simp only [kids,List.mem_filterMap,hmem]
  constructor
  · rintro ⟨id,⟨c,hc,hp⟩,hb⟩
    cases hc.symm.trans hb
    rw [hnamed id b hb]
    exact ⟨hb,hp⟩
  · rintro ⟨hb,hp⟩
    exact ⟨b.blockId,⟨b,hb,hp⟩,hb⟩

theorem kids_inOrder (hidx : Indexed s) : InOrder (kids s parentId) := by
  refine List.Pairwise.filterMap _ ?_ (idsUnder_listing hidx parentId).2
  intro i j hij a ha b hb
  simpa [positionOf,Option.mem_def.mp ha,Option.mem_def.mp hb] using hij

theorem filter_kids {Q : Option Uuid} {ids : List Uuid} {m : Blocks}
    (h : ∀ id ∈ ids, ∀ b, m.get id = some b → b.parentId = Q) :
    (ids.filterMap m.get).filter (fun b => b.parentId = parentId) =
      if parentId = Q then ids.filterMap m.get else [] := by
  have hQ : ∀ b ∈ ids.filterMap m.get, b.parentId = Q := by
    intro b hb
    obtain ⟨id,hid,hget⟩ := List.mem_filterMap.mp hb
    exact h id hid b hget
  split
  · next heq =>
    apply List.filter_eq_self.mpr
    exact fun b hb => decide_eq_true ((hQ b hb).trans heq.symm)
  · next hne =>
    apply List.filter_eq_nil_iff.mpr
    intro b hb hp
    exact hne ((of_decide_eq_true hp).symm.trans (hQ b hb))

theorem filter_flatten {m : Blocks} (es : List (Uuid × List Uuid)) (hkeys : (es.map Prod.fst).Nodup)
    (h : ∀ e ∈ es, ∀ id ∈ e.2, ∀ b, m.get id = some b → b.parentId = some e.1) :
    ((es.map Prod.snd).flatten.filterMap m.get).filter (fun b => b.parentId = parentId) =
      ((parentId.bind (fun p => lookup p es)).getD []).filterMap m.get := by
  induction es with
  | nil => cases parentId <;> rfl
  | cons e es ih =>
    obtain ⟨hnew,hrest⟩ := List.nodup_cons.mp hkeys
    rw [List.map_cons,List.flatten_cons,List.filterMap_append,List.filter_append,
      filter_kids (h e List.mem_cons_self),ih hrest (fun d hd => h d (List.mem_cons_of_mem e hd))]
    cases parentId with
    | none => simp
    | some p =>
      simp only [Option.bind_some,lookup_cons,Option.some.injEq]
      by_cases hp : p = e.1
      · rw [if_pos hp,if_pos hp.symm,hp,lookup_eq_none.mpr hnew]
        simp
      · rw [if_neg hp,if_neg (Ne.symm hp)]
        rfl

theorem siblings_kids (hidx : Indexed s) (hnamed : Named s.blocks) :
    (s.allOrder.filterMap s.blocks.get).filter (fun b => b.parentId = parentId) =
      kids s parentId := by
  have hparent : ∀ Q, ∀ id ∈ idsUnder s Q, ∀ b, s.blocks.get id = some b → b.parentId = Q := by
    intro Q id hid b hb
    obtain ⟨c,hc,hp⟩ := (mem_childIds hnamed).mp ((idsUnder_listing hidx Q).1.mem_iff.mp hid)
    cases hb.symm.trans hc
    exact hp
  have hroot : ∀ id ∈ s.rootOrder, ∀ b, s.blocks.get id = some b → b.parentId = none :=
    hparent none
  have hnested : ∀ e ∈ s.childrenMap.entries, ∀ id ∈ e.2, ∀ b, s.blocks.get id = some b →
      b.parentId = some e.1 := by
    intro e he id hid
    have hget : s.childrenMap.get e.1 = some e.2 := lookup_of_mem s.childrenMap.keyed he
    exact hparent (some e.1) id (by simpa [idsUnder,under,hget] using hid)
  rw [Store.allOrder,List.filterMap_append,List.filter_append,filter_kids hroot,
    OrderedMap.values,filter_flatten _ s.childrenMap.keyed hnested]
  cases parentId with
  | none => simp [kids,idsUnder,under]
  | some p => simp [kids,idsUnder,under,OrderedMap.get]

/-! ## The rank of a local insert or move -/

theorem dropWhile_anchor {ks : List Block} {a : Uuid} {anchor : Block} {rest : List Block}
    (h : ks.dropWhile (fun b => b.blockId ≠ a) = anchor::rest) :
    anchor.blockId = a ∧ ∃ pre, ks = pre++anchor::rest := by
  constructor
  · have hhead := List.head?_dropWhile_not (fun b : Block => decide (b.blockId ≠ a)) ks
    rw [h] at hhead
    simpa using hhead
  · exact ⟨_,by rw [← h]; exact (List.takeWhile_append_dropWhile).symm⟩

def Ahead (ks : List Block) (afterId : Option Uuid) (p : Rank) : Prop :=
  match afterId with
  | none => ∀ z ∈ ks.head?, ClientRank.Below [] z.position p
  | some a => ∀ anchor z rest, ks.dropWhile (fun b => b.blockId ≠ a) = anchor::z::rest →
    ClientRank.Below anchor.position z.position p

theorem ahead_head {z : Block} {rest : List Block} {p : Rank} :
    Ahead (z::rest) none p ↔ ClientRank.Below [] z.position p := by
  simp [Ahead]

theorem ahead_between {ks rest : List Block} {a : Uuid} {anchor z : Block} {p : Rank}
    (h : ks.dropWhile (fun b => b.blockId ≠ a) = anchor::z::rest) :
    Ahead ks (some a) p ↔ ClientRank.Below anchor.position z.position p := by
  constructor
  · exact fun hahead => hahead anchor z rest h
  · intro hbelow anchor' z' rest' heq
    cases h.symm.trans heq
    exact hbelow

/-- Behind the last child, and with an anchor that is no child. -/
theorem ahead_all {ks : List Block} {a : Uuid} {p : Rank}
    (h : (ks.dropWhile (fun b => b.blockId ≠ a)).tail = []) : Ahead ks (some a) p := by
  intro anchor z rest heq
  rw [heq] at h
  cases h

def rankAmong (ks : List Block) : Option Uuid → Rank
  | none => ClientRank.midpoint none (ks.head?.map Block.position)
  | some a =>
    match ks.dropWhile (fun b => b.blockId ≠ a) with
    | [] => ClientRank.midpoint (ks.getLast?.map Block.position) none
    | anchor::rest => ClientRank.midpoint (some anchor.position) (rest.head?.map Block.position)

theorem computePosition_kids (hidx : Indexed s) (hnamed : Named s.blocks) (afterId : Option Uuid) :
    computePosition s.blocks s.allOrder parentId afterId = rankAmong (kids s parentId) afterId := by
  have hrank : computePosition s.blocks s.allOrder parentId afterId = rankAmong
      ((s.allOrder.filterMap s.blocks.get).filter (fun b => b.parentId = parentId)) afterId := by
    cases afterId <;> rfl
  rw [hrank,siblings_kids hidx hnamed]

section Sides

variable {ks pre rest : List Block} {z l o : Block}

theorem first_le (h : InOrder (z::rest)) (ho : o ∈ z::rest) : z.position ≤ o.position := by
  rcases List.mem_cons.mp ho with rfl | ho
  · exact le_refl _
  · exact (List.pairwise_cons.mp h).1 o ho

theorem le_last (h : InOrder (pre++[l])) (ho : o ∈ pre++[l]) : o.position ≤ l.position := by
  rcases List.mem_append.mp ho with ho | ho
  · exact (List.pairwise_append.mp h).2.2 o ho l List.mem_cons_self
  · rw [List.mem_singleton.mp ho]

theorem not_between (h : InOrder (pre++l::z::rest)) (ho : o ∈ pre++l::z::rest) :
    o.position ≤ l.position ∨ z.position ≤ o.position := by
  obtain ⟨_,hbehind,hahead⟩ := List.pairwise_append.mp h
  rcases List.mem_append.mp ho with ho | ho
  · exact Or.inl (hahead o ho l List.mem_cons_self)
  · rcases List.mem_cons.mp ho with rfl | ho
    · exact Or.inl (le_refl _)
    · exact Or.inr (first_le (List.pairwise_cons.mp hbehind).2 ho)

/-- The children that are ahead of the new rank are below it and the others are above. -/
theorem rank_sides (afterId : Option Uuid) (h : InOrder ks)
    (hearly : ∀ b ∈ ks, ClientRank.Early b.position) (ho : o ∈ ks) :
    (Ahead ks afterId o.position → o.position < rankAmong ks afterId) ∧
      (¬Ahead ks afterId o.position → rankAmong ks afterId < o.position) := by
  have hlast : ∀ pre l, ks = pre++[l] →
      o.position < ClientRank.midpoint (some l.position) none := by
    rintro pre l rfl
    exact lt_of_le_of_lt (le_last h ho) (ClientRank.midpoint_append 0 (hearly l (by simp)))
  cases afterId with
  | none =>
    cases ks with
    | nil => exact absurd ho List.not_mem_nil
    | cons z rest =>
      have hnil : ([] : Rank) ≤ z.position := not_lt.mp (List.not_lt_nil _)
      rw [ahead_head]
      exact ClientRank.midpoint_sides 0 (fun c hc => absurd hc List.not_mem_nil)
        (hearly z List.mem_cons_self) (hearly o ho) hnil (Or.inr (first_le h ho))
  | some a =>
    cases hdrop : ks.dropWhile (fun b => b.blockId ≠ a) with
    | nil =>
      obtain ⟨pre,l,hks⟩ : ∃ pre l, ks = pre++[l] :=
        (List.eq_nil_or_concat' ks).resolve_left (List.ne_nil_of_mem ho)
      have hrank : rankAmong ks (some a) = ClientRank.midpoint (some l.position) none := by
        simp only [rankAmong,hdrop]
        rw [hks,List.getLast?_concat,Option.map_some]
      rw [hrank]
      exact ⟨fun _ => hlast pre l hks,fun hnot => absurd (ahead_all (by rw [hdrop]; rfl)) hnot⟩
    | cons anchor rest =>
      obtain ⟨_,pre,hks⟩ := dropWhile_anchor hdrop
      have hrank : rankAmong ks (some a) =
          ClientRank.midpoint (some anchor.position) (rest.head?.map Block.position) := by
        simp only [rankAmong,hdrop]
      rw [hrank]
      cases rest with
      | nil =>
        exact ⟨fun _ => hlast pre anchor hks,
          fun hnot => absurd (ahead_all (by rw [hdrop]; rfl)) hnot⟩
      | cons z rest =>
        rw [ahead_between hdrop]
        rw [hks] at h ho hearly
        have hle : anchor.position ≤ z.position :=
          (List.pairwise_cons.mp (List.pairwise_append.mp h).2.1).1 z List.mem_cons_self
        exact ClientRank.midpoint_sides 0 (hearly anchor (by simp)) (hearly z (by simp))
          (hearly o ho) hle (not_between h ho)

end Sides

end BlockDocs.ClientIndex
