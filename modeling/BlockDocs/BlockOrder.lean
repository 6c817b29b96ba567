import BlockDocs.Outline
import BlockDocs.SiblingGap
import BlockDocs.VisibleBlocks

/-!
# What actions do to the order of blocks

Blocks stand under their parent by position, and blocks with one position as the map has
them. A change of one block leaves all others in their order. A new block stands behind its
anchor if its rank lies between those of its neighbours, and the children of a deleted
block come between their new siblings without a change of either order.
-/

set_option autoImplicit false

namespace BlockDocs.BlockOrder
open BlockDocs.InsertionMap BlockDocs.LexoRank BlockDocs.Wire BlockDocs.BlockStore
open BlockDocs.ClientRun BlockDocs.ClientIndex BlockDocs.ParentChain BlockDocs.GuardedRun
open BlockDocs.VisibleBlocks BlockDocs.SiblingGap BlockDocs.StableOrder BlockDocs.Outline

def order (m : Blocks) (parentId : Option Uuid) : List Uuid := sortByPos m (childIds m parentId)

variable {m n : Blocks} {s : Store} {id x : Uuid} {b : Block} {o p q : Option Uuid}

theorem idsUnder_order (h : Indexed s) : idsUnder s = order s.blocks := by
  funext p
  rw [idsUnder,h.1,h.2]
  exact under_rebuildIndex s.blocks p

theorem mem_order (h : Named m) : x ∈ order m p ↔ parentIn m x p :=
  (sortByPos_listing m _).1.mem_iff.trans (mem_childIds h)

theorem nodup_order (h : Named m) (p : Option Uuid) : (order m p).Nodup :=
  (sortByPos_listing m _).1.nodup_iff.mpr (nodup_childIds h p)

/-! ## The others -/

theorem filter_sortByPos (P : Uuid → Bool) (ids : List Uuid) :
    (sortByPos m ids).filter P = sortByPos m (ids.filter P) := by
  have htotal : Std.Total (fun a b => positionOf m a ≤ positionOf m b) := ⟨fun _ _ => le_total _ _⟩
  have htrans : IsTrans Uuid (fun a b => positionOf m a ≤ positionOf m b) :=
    ⟨fun _ _ _ => le_trans⟩
  exact filter_insertionSort P ids

theorem sortByPos_congr {ids : List Uuid} (h : ∀ i ∈ ids, positionOf n i = positionOf m i) :
    sortByPos n ids = sortByPos m ids := by
  apply insertionSort_congr
  intro i hi j hj
  rw [h i hi,h j hj]

/-- Ids that are under the two parents in the same positions. -/
theorem order_kept {P : Uuid → Bool} (hids : (childIds n q).filter P = (childIds m p).filter P)
    (hposition : ∀ i, P i = true → positionOf n i = positionOf m i) :
    (order n q).filter P = (order m p).filter P := by
  rw [order,order,filter_sortByPos,filter_sortByPos,hids]
  apply sortByPos_congr
  intro i hi
  exact hposition i (List.mem_filter.mp hi).2

theorem childIds_entries (h : Named m) (p : Option Uuid) :
    childIds m p = (m.entries.filter (fun e => e.2.parentId = p)).map Prod.fst := by
  rw [childIds,OrderedMap.values,List.filter_map,List.map_map]
  apply List.map_congr_left
  intro e he
  exact h e.1 e.2 (lookup_of_mem m.keyed (List.mem_filter.mp he).1)

theorem childIds_delete (h : Named m) (id : Uuid) (p : Option Uuid) :
    childIds (m.delete id) p = (childIds m p).filter (· ≠ id) := by
  rw [childIds_entries h,childIds_entries (named_delete h),List.filter_map,List.filter_filter]
  show ((erase id m.entries).filter _).map Prod.fst = _
  rw [erase,List.filter_filter]
  congr 1
  apply List.filter_congr
  intro e _
  exact Bool.and_comm _ _

theorem erase_put_self {K V : Type*} [DecidableEq K] (k : K) (v : V) (es : List (K × V)) :
    erase k (put k v es) = erase k es := by
  cases h : lookup k es with
  | none => rw [erase_put h,erase_absent h]
  | some w =>
    have hk : k ∈ es.map Prod.fst := by
      by_contra hn
      cases (lookup_eq_none.mpr hn).symm.trans h
    rw [put_present hk,erase,erase,List.filter_map]
    have hkeys : es.filter ((fun e => decide (e.1 ≠ k)) ∘ fun e => if e.1 = k then (k,v) else e) =
        es.filter (fun e => decide (e.1 ≠ k)) := by
      apply List.filter_congr
      intro e _
      by_cases he : e.1 = k <;> simp [he]
    rw [hkeys]
    refine (List.map_congr_left (fun e he => ?_)).trans (List.map_id _)
    rw [if_neg (of_decide_eq_true (List.mem_filter.mp he).2),id]

theorem delete_set_self (m : Blocks) (id : Uuid) (b : Block) :
    (m.set id b).delete id = m.delete id :=
  OrderedMap.ext_entries (erase_put_self id b m.entries)

theorem positionOf_set (m : Blocks) (id : Uuid) (b : Block) (i : Uuid) :
    positionOf (m.set id b) i = if i = id then b.position else positionOf m i := by
  rw [positionOf,OrderedMap.get_set]
  split <;> rfl

theorem positionOf_delete {i : Uuid} (h : i ≠ id) : positionOf (m.delete id) i = positionOf m i := by
  rw [positionOf,OrderedMap.get_delete,if_neg h,positionOf]

theorem positionOf_promote (m : Blocks) (id : Uuid) (o : Option Uuid) (i : Uuid) :
    positionOf (promote id o m) i = positionOf m i := by
  rw [positionOf,get_promote,Option.map_map,positionOf]
  congr 2
  funext b
  rw [Function.comp]
  split <;> rfl

theorem order_set (h : Named m) (hb : b.blockId = id) :
    Shifted id (order m) (order (m.set id b)) := by
  intro p
  apply order_kept
  · rw [← childIds_delete h,← childIds_delete (named_set h hb),delete_set_self]
  · intro i hi
    rw [positionOf_set,if_neg (of_decide_eq_true hi)]

theorem order_delete (h : Named m) (id : Uuid) (p : Option Uuid) :
    order (m.delete id) p = (order m p).filter (· ≠ id) := by
  rw [order,childIds_delete h,order,filter_sortByPos]
  apply sortByPos_congr
  intro i hi
  exact positionOf_delete (of_decide_eq_true (List.mem_filter.mp hi).2)

theorem order_adjust {f : Block → Block} (hf : Unplaced f) (id : Uuid) :
    order (adjust m id f) = order m := by
  have hindex : rebuildIndex (adjust m id f) = rebuildIndex m := by
    unfold adjust
    split
    · rfl
    · next b hb => exact indexed_set hf hb
  funext p
  rw [order,order,← under_rebuildIndex,← under_rebuildIndex,hindex]

/-! ## A new block -/

def gap (ks : List Block) : Option Uuid → Option Rank × Option Rank
  | none => (none,ks.head?.map Block.position)
  | some a =>
    match ks.dropWhile (fun b => b.blockId ≠ a) with
    | [] => (ks.getLast?.map Block.position,none)
    | anchor::rest => (some anchor.position,rest.head?.map Block.position)

theorem rankAmong_gap (ks : List Block) (afterId : Option Uuid) :
    rankAmong ks afterId = ClientRank.midpoint (gap ks afterId).1 (gap ks afterId).2 := by
  cases afterId with
  | none => rfl
  | some a =>
    cases hdrop : ks.dropWhile (fun b => b.blockId ≠ a) with
    | nil => simp only [rankAmong,gap,hdrop]
    | cons anchor rest => simp only [rankAmong,gap,hdrop]

def Room (ks : List Block) (afterId : Option Uuid) : Prop :=
  Within (gap ks afterId).1 (gap ks afterId).2
    (ClientRank.midpoint (gap ks afterId).1 (gap ks afterId).2)

theorem kids_ids (hidx : Indexed s) (hnamed : Named s.blocks) (p : Option Uuid) :
    (kids s p).map Block.blockId = order s.blocks p := by
  have hall : ∀ ids : List Uuid, (∀ i ∈ ids, ∃ b, s.blocks.get i = some b) →
      (ids.filterMap s.blocks.get).map Block.blockId = ids := by
    intro ids h
    induction ids with
    | nil => rfl
    | cons i ids ih =>
      obtain ⟨b,hb⟩ := h i List.mem_cons_self
      rw [List.filterMap_cons_some hb,List.map_cons,hnamed i b hb,
        ih (fun j hj => h j (List.mem_cons_of_mem i hj))]
  rw [kids,idsUnder_order hidx]
  apply hall
  intro i hi
  obtain ⟨b,hb,_⟩ := (mem_order hnamed).mp hi
  exact ⟨b,hb⟩

/-- The children ahead of the gap and those behind it. -/
theorem gap_split (id : Uuid) (ks : List Block) (afterId : Option Uuid) : ∃ ls rs, ks = ls++rs ∧
    insertBehind id afterId (ks.map Block.blockId) =
      ls.map Block.blockId++id::rs.map Block.blockId ∧
    (gap ks afterId).1 = ls.getLast?.map Block.position ∧
    (gap ks afterId).2 = rs.head?.map Block.position := by
  cases afterId with
  | none => exact ⟨[],ks,rfl,rfl,rfl,rfl⟩
  | some a =>
    cases hdrop : ks.dropWhile (fun b => b.blockId ≠ a) with
    | nil =>
      have habsent : a ∉ ks.map Block.blockId := by
        intro ha
        obtain ⟨c,hc,rfl⟩ := List.mem_map.mp ha
        have hall := List.dropWhile_eq_nil_iff.mp hdrop c hc
        simp at hall
      refine ⟨ks,[],(List.append_nil ks).symm,insertBehind_absent habsent,?_,?_⟩
      · simp only [gap,hdrop]
      · simp only [gap,hdrop]
        rfl
    | cons anchor rest =>
      obtain ⟨rfl,pre,hks⟩ := dropWhile_anchor hdrop
      have hpre : pre = ks.takeWhile (fun b => b.blockId ≠ anchor.blockId) := by
        have hsplit := @List.takeWhile_append_dropWhile _
          (fun b : Block => decide (b.blockId ≠ anchor.blockId)) ks
        rw [hdrop] at hsplit
        exact List.append_cancel_right (hks.symm.trans hsplit.symm)
      have habsent : anchor.blockId ∉ pre.map Block.blockId := by
        intro ha
        obtain ⟨c,hc,heq⟩ := List.mem_map.mp ha
        have hall := List.mem_takeWhile_imp (hpre ▸ hc)
        simp [heq] at hall
      refine ⟨pre++[anchor],rest,by simp [hks],?_,?_,?_⟩
      · rw [hks,List.map_append,List.map_cons,insertBehind_split habsent]
        simp
      · simp only [gap,hdrop]
        rw [List.getLast?_concat,Option.map_some]
      · simp only [gap,hdrop]

/-- The new block stands where `afterId` says. -/
theorem order_insert (hidx : Indexed s) (hnamed : Named s.blocks) (hfresh : s.blocks.get id = none)
    (hb : b.blockId = id) {afterId : Option Uuid}
    (hrank : Within (gap (kids s b.parentId) afterId).1 (gap (kids s b.parentId) afterId).2
      b.position) : order (s.blocks.set id b) =
        Function.update (order s.blocks) b.parentId
          (insertBehind id afterId (order s.blocks b.parentId)) := by
  have hnamed' := named_set hnamed hb
  have hget : (s.blocks.set id b).get id = some b := by rw [OrderedMap.get_set,if_pos rfl]
  have hnew : ∀ p, ∀ i ∈ order s.blocks p, i ≠ id := by
    rintro p i hi rfl
    obtain ⟨c,hc,_⟩ := (mem_order hnamed).mp hi
    cases hfresh.symm.trans hc
  have hshift : ∀ p, (order (s.blocks.set id b) p).filter (· ≠ id) = order s.blocks p := by
    intro p
    rw [order_set hnamed hb p]
    exact List.filter_eq_self.mpr fun i hi => decide_eq_true (hnew p i hi)
  funext p
  by_cases hp : p = b.parentId
  · subst hp
    rw [Function.update_self]
    have hposition : ∀ c ∈ kids s b.parentId,
        positionOf (s.blocks.set id b) c.blockId = c.position := by
      intro c hc
      obtain ⟨hc,hparent⟩ := (mem_kids hidx hnamed).mp hc
      have hne := hnew b.parentId c.blockId ((mem_order hnamed).mpr ⟨c,hc,hparent⟩)
      rw [positionOf_set,if_neg hne,positionOf,hc]
      rfl
    have hself : positionOf (s.blocks.set id b) id = b.position := by
      rw [positionOf_set,if_pos rfl]
    obtain ⟨ls,rs,hks,hinsert,hleft,hright⟩ := gap_split id (kids s b.parentId) afterId
    rw [hleft,hright] at hrank
    have hsorted : InOrder (ls++rs) := hks ▸ kids_inOrder hidx
    rw [← kids_ids hidx hnamed,hinsert]
    apply placed_between (sortByPos_listing _ _).2 (nodup_order hnamed' _)
      ((mem_order hnamed').mpr ⟨b,hget,rfl⟩)
    · rw [← List.map_append,← hks,kids_ids hidx hnamed]
      exact hshift _
    · intro i hi
      obtain ⟨c,hc,rfl⟩ := List.mem_map.mp hi
      rw [hself,hposition c (by rw [hks]; exact List.mem_append_left _ hc)]
      exact below_of_last hsorted hrank.1 c hc
    · intro i hi
      obtain ⟨c,hc,rfl⟩ := List.mem_map.mp hi
      rw [hself,hposition c (by rw [hks]; exact List.mem_append_right _ hc)]
      exact above_of_first hsorted hrank.2 c hc
  · rw [Function.update_of_ne hp,← hshift p]
    refine (List.filter_eq_self.mpr fun i hi => decide_eq_true ?_).symm
    rintro rfl
    obtain ⟨c,hc,hparent⟩ := (mem_order hnamed').mp hi
    cases hget.symm.trans hc
    exact hp hparent.symm

/-! ## A deleted block -/

theorem childIds_promote (h : Named m) (id : Uuid) (o p : Option Uuid) :
    childIds (promote id o m) p = (m.entries.filter (fun e =>
      (if e.2.parentId = some id then o else e.2.parentId) = p)).map Prod.fst := by
  rw [childIds_entries (named_promote h)]
  show ((m.entries.map _).filter _).map Prod.fst = _
  rw [List.filter_map,List.map_map]
  refine congrArg (List.map Prod.fst) (List.filter_congr fun e _ => ?_)
  rw [Function.comp]
  by_cases he : e.2.parentId = some id <;> simp [he]

/-- Of the children after a promotion, those that a parent had before. -/
theorem childIds_part (h : Named m) {P : Uuid → Bool}
    (hP : ∀ e ∈ m.entries, ((if e.2.parentId = some id then o else e.2.parentId) = p ∧
      P e.1 = true) ↔ e.2.parentId = q) :
    (childIds (promote id o m) p).filter P = childIds m q := by
  rw [childIds_promote h,childIds_entries h,List.filter_map,List.filter_filter]
  refine congrArg (List.map Prod.fst) (List.filter_congr fun e he => ?_)
  rw [Function.comp,Bool.eq_iff_iff,Bool.and_eq_true,decide_eq_true_eq,decide_eq_true_eq]
  exact and_comm.trans (hP e he)

theorem order_part (h : Named m) {P : Uuid → Bool}
    (hP : ∀ e ∈ m.entries, ((if e.2.parentId = some id then o else e.2.parentId) = p ∧
      P e.1 = true) ↔ e.2.parentId = q) :
    (order (promote id o m) p).filter P = order m q := by
  rw [order,filter_sortByPos,childIds_part h hP]
  exact sortByPos_congr fun i _ => positionOf_promote m id o i

theorem order_dissolve (h : Named m) (ho : o ≠ some id) (hself : ¬parentIn m id (some id)) :
    Dissolved id o (order m) (order (promote id o (m.delete id))) := by
  have hnamed : Named (m.delete id) := named_delete h
  have hkids : order (m.delete id) (some id) = order m (some id) := by
    rw [order_delete h]
    apply List.filter_eq_self.mpr
    intro i hi
    refine decide_eq_true ?_
    rintro rfl
    exact hself ((mem_order h).mp hi)
  constructor
  · apply List.eq_nil_iff_forall_not_mem.mpr
    intro i hi
    obtain ⟨c,hc,hparent⟩ := (mem_order (named_promote hnamed)).mp hi
    rw [get_promote] at hc
    obtain ⟨b,_,rfl⟩ := Option.map_eq_some_iff.mp hc
    by_cases hb : b.parentId = some id
    · rw [if_pos hb] at hparent
      exact ho hparent
    · rw [if_neg hb] at hparent
      exact hb hparent
  · -- the children of `o` are told apart by the parent that they had
    have hget : ∀ e ∈ (m.delete id).entries, (m.delete id).get e.1 = some e.2 :=
      fun e he => lookup_of_mem (m.delete id).keyed he
    have hleft : (order (promote id o (m.delete id)) o).filter
        (fun i => ((m.delete id).get i).map Block.parentId = some o) = order (m.delete id) o := by
      apply order_part hnamed
      intro e he
      by_cases hb : e.2.parentId = some id
      · simp [hget e he,hb,Ne.symm ho]
      · simp [hget e he,hb]
    have hright : (order (promote id o (m.delete id)) o).filter
        (fun i => !decide (((m.delete id).get i).map Block.parentId = some o)) =
          order (m.delete id) (some id) := by
      apply order_part hnamed
      intro e he
      by_cases hb : e.2.parentId = some id
      · simp [hget e he,hb,Ne.symm ho]
      · simp [hget e he,hb]
    rw [← order_delete h,← hkids,← hleft,← hright]
    exact interleaved_filter _ _
  · intro p hpo hp
    rw [← order_delete h]
    have hpart : (order (promote id o (m.delete id)) p).filter (fun _ => true) =
        order (m.delete id) p := by
      apply order_part hnamed
      intro e _
      by_cases he : e.2.parentId = some id
      · simp [he,Ne.symm hpo,Ne.symm hp]
      · simp [he]
    rwa [List.filter_true] at hpart

end BlockDocs.BlockOrder
