import BlockDocs.ClientIndex
import BlockDocs.EarlyRanks
import BlockDocs.SiblingOrder

/-!
# The order after a local insert or move

The browser and the server rank the same block among the same children, each in its
own way. The browser does not know the digits of the server's ranks, and it appends
where the anchor is no child of the target parent.
-/

set_option autoImplicit false

namespace BlockDocs.OptimisticOrder
open BlockDocs.InsertionMap BlockDocs.LexoRank BlockDocs.Wire BlockDocs.DocBlocks
open BlockDocs.ApplyOps BlockDocs.SortedListing BlockDocs.SiblingOrder BlockDocs.Reachability
open BlockDocs.PostOperations BlockDocs.ClientRun BlockDocs.ClientIndex BlockDocs.EarlyRanks
open BlockDocs.BlockStore (Blocks Store)
open BlockDocs.ClientRank (Early Past Below overrun)

/-! ## The shared tree -/

def placeOf (b : Block) : Uuid × Option Uuid × Rank := (b.blockId,b.parentId,b.position)

def Shared (m : Blocks) (t : Table) (docId : DocId) : Prop :=
  ∀ id, (m.get id).map placeOf = (t.find docId id).map (fun r => placeOf (rowToBlock r))

variable {m : Blocks} {t : Table} {docId : DocId}

theorem shared_block (h : Shared m t docId) {id : Uuid} {b : Block} (hb : m.get id = some b) :
    b.blockId = id ∧ ∃ r ∈ t.rows, r.docId = docId ∧ r.blockId = id ∧
      r.parentId = b.parentId ∧ r.position = b.position := by
  have hid := h id
  rw [hb] at hid
  obtain ⟨r,hr,hplace⟩ := Option.map_eq_some_iff.mp hid.symm
  obtain ⟨hrow,hdoc,hrid⟩ := (find_some_iff _ _ _ _).mp hr
  simp only [placeOf,rowToBlock,Prod.mk.injEq] at hplace
  exact ⟨hplace.1.symm.trans hrid,r,hrow,hdoc,hrid,hplace.2⟩

theorem shared_row (h : Shared m t docId) {r : BlockRow} (hr : r ∈ t.rows)
    (hdoc : r.docId = docId) :
    ∃ b, m.get r.blockId = some b ∧ b.parentId = r.parentId ∧ b.position = r.position := by
  have hid := h r.blockId
  rw [(find_some_iff _ _ _ _).mpr ⟨hr,hdoc,rfl⟩] at hid
  obtain ⟨b,hb,hplace⟩ := Option.map_eq_some_iff.mp hid
  simp only [placeOf,rowToBlock,Prod.mk.injEq] at hplace
  exact ⟨b,hb,hplace.2⟩

theorem shared_named (h : Shared m t docId) : Named m := fun _ _ hb => (shared_block h hb).1

section Kids

variable {s : Store} {parentId : Option Uuid}

/-- Both sides have the same children under a parent, in the same positions. -/
theorem kid_row (hidx : Indexed s) (h : Shared s.blocks t docId) {o : Block}
    (ho : o ∈ kids s parentId) :
    ∃ r ∈ siblings t docId parentId, r.blockId = o.blockId ∧ r.position = o.position := by
  obtain ⟨hget,hparent⟩ := (mem_kids hidx (shared_named h)).mp ho
  obtain ⟨_,r,hrow,hdoc,hid,hp,hpos⟩ := shared_block h hget
  exact ⟨r,mem_siblings.mpr ⟨hrow,hdoc,hp.trans hparent⟩,hid,hpos⟩

theorem row_kid (hidx : Indexed s) (h : Shared s.blocks t docId) {r : BlockRow}
    (hr : r ∈ siblings t docId parentId) :
    ∃ o ∈ kids s parentId, o.blockId = r.blockId ∧ o.position = r.position := by
  obtain ⟨hrow,hdoc,hparent⟩ := mem_siblings.mp hr
  obtain ⟨o,ho,hp,hpos⟩ := shared_row h hrow hdoc
  have hid : o.blockId = r.blockId := shared_named h _ _ ho
  exact ⟨o,(mem_kids hidx (shared_named h)).mpr ⟨by rw [hid]; exact ho,hp.trans hparent⟩,hid,hpos⟩

theorem kids_others (hidx : Indexed s) (h : Shared s.blocks t docId) {b : Uuid} (φ : Rank → Prop) :
    (∀ o ∈ kids s parentId, o.blockId ≠ b → φ o.position) ↔
      ∀ r ∈ others t docId parentId b, φ r.position := by
  constructor
  · intro hall r hr
    obtain ⟨hsib,hne⟩ := List.mem_filter.mp hr
    obtain ⟨o,ho,hid,hpos⟩ := row_kid hidx h hsib
    exact hpos ▸ hall o ho (hid.symm ▸ of_decide_eq_true hne)
  · intro hall o ho hne
    obtain ⟨r,hsib,hid,hpos⟩ := kid_row hidx h ho
    exact hpos ▸ hall r (List.mem_filter.mpr ⟨hsib,decide_eq_true (hid.symm ▸ hne)⟩)

/-- The first child of the client is a first one of the server. -/
theorem head_position (hidx : Indexed s) (h : Shared s.blocks t docId) {z : Block}
    {rest : List Block} (hks : kids s parentId = z::rest) :
    nextPosition t docId parentId none = some z.position := by
  obtain ⟨r,hr,_,hpos⟩ := kid_row hidx h (hks ▸ List.mem_cons_self : z ∈ kids s parentId)
  cases hz : nextPosition t docId parentId none with
  | none =>
    have hempty : siblings t docId parentId = [] := by simpa [nextPosition] using hz
    exact absurd (hempty ▸ hr) List.not_mem_nil
  | some y =>
    obtain ⟨⟨f,hf,rfl⟩,hleast⟩ := nextPosition_head hz
    obtain ⟨o,ho,_,hopos⟩ := row_kid hidx h hf
    have hle : z.position ≤ f.position :=
      hopos ▸ first_le (hks ▸ kids_inOrder hidx) (hks ▸ ho)
    rw [le_antisymm (hpos ▸ hleast r hr) hle]

end Kids

/-! ## One action on both sides -/

inductive Placing where
  | insertBlock (blockId : Uuid) (type : String) (parentId afterId : Option Uuid)
      (content : Option JsonObj)
  | moveBlock (blockId : Uuid) (parentId afterId : Option Uuid)

def Placing.event : Placing → ClientEvent
  | .insertBlock blockId type parentId afterId content =>
    .insertBlock blockId type parentId afterId content
  | .moveBlock blockId parentId afterId => .moveBlock blockId parentId afterId

def Placing.blockId : Placing → Uuid
  | .insertBlock blockId _ _ _ _ => blockId
  | .moveBlock blockId _ _ => blockId

def Placing.parentId : Placing → Option Uuid
  | .insertBlock _ _ parentId _ _ => parentId
  | .moveBlock _ parentId _ => parentId

def Placing.afterId : Placing → Option Uuid
  | .insertBlock _ _ _ afterId _ => afterId
  | .moveBlock _ _ afterId => afterId

/-- The client has written the block with the rank that it computed. -/
theorem placing_client {s : Store} {p : Placing} {op : BlockOperation}
    (hidx : Indexed s) (hnamed : Named s.blocks) (h : Enqueues s p.event op) :
    Indexed (clientStep s p.event) ∧ ∃ v : Block,
      placeOf v = (p.blockId,p.parentId,rankAmong (kids s p.parentId) p.afterId) ∧
        (clientStep s p.event).blocks = s.blocks.set p.blockId v := by
  refine ⟨step_indexed hidx _,?_⟩
  cases p with
  | insertBlock blockId type parentId afterId content =>
    refine ⟨BlockStore.newBlock s blockId type parentId afterId content,?_,rfl⟩
    rw [placeOf,BlockStore.newBlock,computePosition_kids hidx hnamed]
    rfl
  | moveBlock blockId parentId afterId =>
    obtain ⟨existing,hget,_⟩ := sent_move h
    refine ⟨BlockStore.movedBlock s existing parentId afterId,?_,?_⟩
    · rw [placeOf,BlockStore.movedBlock,computePosition_kids hidx hnamed,hnamed _ _ hget]
      rfl
    · show (s.moveBlock blockId parentId afterId).blocks = _
      rw [moveBlock_some hget]
      rfl

theorem ofOption_read {id id' : Option Uuid} (h : IdField.read (.ofOption id) = .ok id') :
    id' = id := Except.ok.inj (h.symm.trans (read_ok.mpr rfl))

/-- The server has done so with its own rank. -/
theorem placing_server {s : Store} {db next : Database} {userId : UserId} {p : Placing}
    {op : BlockOperation} {a : AppliedOp} (hsent : Enqueues s p.event op)
    (h : applyOp db docId userId op = .ok (a,next)) : ∃ row : BlockRow,
      row.blockId = p.blockId ∧
      computePosition db.blocks docId p.parentId p.afterId = .ok row.position ∧
      (siblings next.blocks docId p.parentId).Perm
        (row::others db.blocks docId p.parentId p.blockId) := by
  have happ := applyOp_applied h
  cases p with
  | insertBlock blockId type parentId afterId content =>
    obtain rfl := sent_insert hsent
    cases happ with
    | @insert _ _ _ depth position _ _ hid hparent hafter hfresh _ hposition hwrite _ =>
      obtain rfl := ofOption_read hparent
      obtain rfl := ofOption_read hafter
      cases hid
      exact ⟨insertedRow docId blockId _ _ position depth,rfl,hposition,
        siblings_insert (write_rows hwrite) hfresh⟩
    | gone hop => cases hop
    | delete hop => cases hop
    | move hop => cases hop
    | attrs hop => cases hop
    | content hop => cases hop
  | moveBlock blockId parentId afterId =>
    obtain ⟨existing,_,rfl⟩ := sent_move hsent
    cases happ with
    | insert hop => cases hop
    | gone hop => cases hop
    | delete hop => cases hop
    | @move row _ _ depth position _ _ hid hparent hafter hrow hdoc _ _ hposition hwrite _ =>
      obtain rfl := ofOption_read hparent
      obtain rfl := ofOption_read hafter
      cases hid
      subst hdoc
      exact ⟨movedRow _ position depth (row.version+1) row,rfl,hposition,
        siblings_move hrow (write_rows hwrite)⟩
    | attrs hop => cases hop
    | content hop => cases hop

/-! ## When the two orders agree -/

/-- The ids under the parent in the client's index are those of a listing of the
rows by the server's positions. -/
def OrdersAgree (s : Store) (t : Table) (docId : DocId) (parentId : Option Uuid) : Prop :=
  ∃ listed, Listing BlockRow.position (siblings t docId parentId) listed ∧
    idsUnder s parentId = listed.map BlockRow.blockId

theorem positionOf_place {b : Block} {id : Uuid} (hget : m.get id = some b) :
    BlockStore.positionOf m id = b.position := by
  rw [BlockStore.positionOf,hget]
  rfl

section Order

variable {s s' : Store} {next : Table} {parentId : Option Uuid} {row : BlockRow} {v : Block}

/-- The client has under the parent what the server has there. -/
theorem ids_after (hshared : Shared s.blocks t docId)
    (hblocks : s'.blocks = s.blocks.set row.blockId v) (hid : v.blockId = row.blockId)
    (hparent : v.parentId = parentId) :
    (childIds s'.blocks parentId).Perm
      ((row::others t docId parentId row.blockId).map BlockRow.blockId) := by
  have hnamed := shared_named hshared
  have hnamed' : Named s'.blocks := by
    intro id b hb
    rw [hblocks,OrderedMap.get_set] at hb
    split at hb
    · next heq =>
      cases hb
      exact hid.trans heq.symm
    · exact hnamed id b hb
  have hkeys : ((row::others t docId parentId row.blockId).map BlockRow.blockId).Nodup := by
    refine List.nodup_cons.mpr ⟨?_,t.keyed.sublist ((List.filter_sublist.trans List.filter_sublist).map _)⟩
    intro hm
    obtain ⟨r,hr,heq⟩ := List.mem_map.mp hm
    exact (mem_others.mp hr).2 heq
  refine (List.perm_ext_iff_of_nodup (nodup_childIds hnamed' parentId) hkeys).mpr (fun id => ?_)
  rw [mem_childIds hnamed',hblocks,List.map_cons,List.mem_cons,List.mem_map]
  simp only [OrderedMap.get_set]
  by_cases heq : id = row.blockId
  · simp [heq,hparent]
  · simp only [heq,if_false,false_or]
    constructor
    · rintro ⟨b,hb,hp⟩
      obtain ⟨_,r,hrow,hdoc,hrid,hrp,_⟩ := shared_block hshared hb
      exact ⟨r,mem_others.mpr ⟨⟨hrow,hdoc,hrp.trans hp⟩,by rwa [hrid]⟩,hrid⟩
    · rintro ⟨r,hr,rfl⟩
      obtain ⟨⟨hrow,hdoc,hrp⟩,_⟩ := mem_others.mp hr
      obtain ⟨b,hb,hp,_⟩ := shared_row hshared hrow hdoc
      exact ⟨b,hb,hp.trans hrp⟩

/-- Only the new block has another position on the server than on the client. -/
theorem orders_agree_sides (hidx : Indexed s') (hshared : Shared s.blocks t docId)
    (hblocks : s'.blocks = s.blocks.set row.blockId v) (hid : v.blockId = row.blockId)
    (hparent : v.parentId = parentId)
    (hperm : (siblings next docId parentId).Perm (row::others t docId parentId row.blockId))
    (hne : ∀ o ∈ others t docId parentId row.blockId, o.position ≠ v.position) :
    OrdersAgree s' next docId parentId ↔
      ∀ o ∈ others t docId parentId row.blockId,
        (o.position < v.position → o.position ≤ row.position) ∧
          (v.position < o.position → row.position ≤ o.position) := by
  have hlist := listing_perm (idsUnder_listing hidx parentId)
    (ids_after hshared hblocks hid hparent)
  have hrow : BlockStore.positionOf s'.blocks row.blockId = v.position :=
    positionOf_place (by rw [hblocks,OrderedMap.get_set,if_pos rfl])
  have hothers : ∀ o ∈ others t docId parentId row.blockId,
      BlockStore.positionOf s'.blocks o.blockId = o.position := by
    intro o ho
    obtain ⟨⟨hmem,hdoc,_⟩,hoid⟩ := mem_others.mp ho
    obtain ⟨b,hb,_,hpos⟩ := shared_row hshared hmem hdoc
    refine (positionOf_place ?_).trans hpos
    rw [hblocks,OrderedMap.get_set,if_neg hoid,hb]
  have hrekey : ∀ listed, Listing (BlockStore.positionOf s'.blocks ∘ BlockRow.blockId)
      (row::others t docId parentId row.blockId) listed →
      (Listing BlockRow.position (row::others t docId parentId row.blockId) listed ↔
        ∀ o ∈ others t docId parentId row.blockId,
          (o.position < v.position → o.position ≤ row.position) ∧
            (v.position < o.position → row.position ≤ o.position)) := by
    intro listed hl
    refine (listing_rekey hl (fun o ho => (hothers o ho).symm) ?_).trans (forall₂_congr ?_)
    · intro o ho
      rw [Function.comp,Function.comp,hothers o ho,hrow]
      exact hne o ho
    · intro o ho
      rw [Function.comp,Function.comp,hothers o ho,hrow]
  constructor
  · rintro ⟨listed,hl,hids⟩
    have hsorted := hlist.2
    rw [hids,List.pairwise_map] at hsorted
    have hl := listing_perm hl hperm
    exact (hrekey listed ⟨hl.1,hsorted⟩).mp hl
  · intro hsides
    obtain ⟨listed,hids,hl⟩ := listing_image hlist
    exact ⟨listed,listing_perm ((hrekey listed hl).mpr hsides) hperm.symm,hids⟩

end Order

/-- Every other child is on the same side of the block for both. The browser's rank may
go past the child behind the anchor and then past others that extend the same rank, and at
the floor the server goes past the first child too. An anchor that is no child stands for
the last child in the browser and for its own position on the server. -/
def SameSide (s : Store) (b : Uuid) (parentId afterId : Option Uuid) : Prop :=
  match afterId with
  | none => ∀ z ∈ (kids s parentId).head?, ∀ w ∈ overrun [] z.position,
    ∀ o ∈ kids s parentId, o.blockId ≠ b →
      Past w o.position ∨ AllFloor z.position ∧ o.position ≤ after z.position
  | some a =>
    match (kids s parentId).dropWhile (fun b => b.blockId ≠ a) with
    | [] => ∀ anchor ∈ s.blocks.get a, ∀ o ∈ kids s parentId, o.blockId ≠ b →
      o.position ≤ anchor.position
    | anchor::rest => ∀ z ∈ rest.head?, ∀ w ∈ overrun anchor.position z.position,
      ∀ o ∈ kids s parentId, o.blockId ≠ b →
        o.position ≤ anchor.position ∨ Past w o.position

theorem overrun_extends {prev next w : Rank} (h : overrun prev next = some w) : prev <+: w := by
  induction prev generalizing next w with
  | nil => exact List.nil_prefix
  | cons c cs ih =>
    cases next with
    | nil => cases h
    | cons d ds =>
      rw [overrun] at h
      split at h
      · obtain ⟨v,hv,rfl⟩ := Option.map_eq_some_iff.mp h
        exact List.cons_prefix_cons.mpr ⟨rfl,ih hv⟩
      · cases h

theorem past_gt {prev w p : Rank} (hpre : prev <+: w) (h : Past w p) : prev < p := by
  obtain ⟨u,rfl⟩ := hpre
  refine lt_of_le_of_lt ?_ h.1
  cases u with
  | nil => rw [List.append_nil]
  | cons c u => exact le_of_lt (lt_append_cons prev c u)

/-- Past a floor rank the browser's rank is above the server's too. -/
theorem floor_past {z w p : Rank} (hz : AllFloor z) (hw : overrun [] z = some w) (h : Past w p) :
    after z ≤ p := by
  cases z with
  | nil =>
    cases hw
    exact absurd List.nil_prefix h.2
  | cons c z =>
    obtain rfl : c = minChar := hz c List.mem_cons_self
    cases hw
    exact le_of_lt (lt_trans (cons_lt_of_lt (by decide) _ _) h.1)

theorem floor_overrun {z : Rank} (hz : AllFloor z) : overrun [] z ≠ none := by
  cases z with
  | nil => simp [overrun]
  | cons c z =>
    obtain rfl : c = minChar := hz c List.mem_cons_self
    simp [overrun,minChar]

section Sides

variable {l z p qs : Rank}

/-- One other child, when the block goes to the head. -/
theorem head_sides (hqs : midpoint none (some z) = .ok qs) (hp : z ≤ p) :
    ((Below [] z p → p ≤ qs) ∧ (¬Below [] z p → qs ≤ p)) ↔
      ∀ w ∈ overrun [] z, Past w p ∨ AllFloor z ∧ p ≤ after z := by
  unfold Below
  cases hw : overrun [] z with
  | none =>
    have hbelow : qs < z := before_lt hqs (fun hz => floor_overrun hz hw)
    have hnil : ([] : Rank) ≤ qs := not_lt.mp (List.not_lt_nil qs)
    simp only [Option.mem_def,reduceCtorEq,false_imp_iff,implies_true,iff_true]
    exact ⟨fun hle => hle.trans hnil,fun _ => (le_of_lt hbelow).trans hp⟩
  | some w =>
    simp only [Option.mem_def,Option.some.injEq,forall_eq',not_not]
    by_cases hz : AllFloor z
    · rw [before_floor_gt hqs hz]
      constructor
      · intro hsides
        by_cases hpast : Past w p
        · exact Or.inl hpast
        · exact Or.inr ⟨hz,hsides.1 hpast⟩
      · intro hside
        refine ⟨fun hpast => (hside.resolve_left hpast).2,fun hpast => floor_past hz hw hpast⟩
    · have hlt : qs < p := lt_of_lt_of_le (before_lt hqs hz) hp
      constructor
      · intro hsides
        refine Or.inl (not_not.mp (fun hpast => ?_))
        exact absurd (hsides.1 hpast) (not_le_of_gt hlt)
      · intro hside
        have hpast := hside.resolve_right (fun h => hz h.1)
        exact ⟨fun hnot => absurd hpast hnot,fun _ => le_of_lt hlt⟩

/-- What the server's rank after a rank `l` is compared with. -/
theorem after_sides (hl : l < qs) (hgap : p ≤ l ∨ qs < p) :
    (p ≤ qs ↔ p ≤ l) ∧ (qs ≤ p ↔ ¬p ≤ l) := by
  constructor
  · exact ⟨fun hp => hgap.resolve_right (not_lt_of_ge hp),fun hp => hp.trans (le_of_lt hl)⟩
  · constructor
    · exact fun hqs hp => absurd (lt_of_lt_of_le hl hqs) (not_lt_of_ge hp)
    · exact fun hp => le_of_lt (hgap.resolve_left hp)

/-- One other child, when the block goes between its anchor and the child at `z`. -/
theorem between_sides (hl : l < qs) (hgap : p ≤ l ∨ qs < p) :
    ((Below l z p → p ≤ qs) ∧ (¬Below l z p → qs ≤ p)) ↔
      ∀ w ∈ overrun l z, p ≤ l ∨ Past w p := by
  obtain ⟨hle,hge⟩ := after_sides hl hgap
  rw [hle,hge]
  unfold Below
  cases hw : overrun l z with
  | none => simp
  | some w =>
    have hpast : Past w p → ¬p ≤ l := fun h => not_le_of_gt (past_gt (overrun_extends hw) h)
    simp only [Option.mem_def,Option.some.injEq,forall_eq',not_not]
    constructor
    · intro hsides
      by_cases hp : Past w p
      · exact Or.inr hp
      · exact Or.inl (hsides.1 hp)
    · exact fun hside => ⟨fun hp => hside.resolve_right hp,hpast⟩

end Sides

variable {s : Store} {parentId : Option Uuid} {b : Uuid} {qs : Rank}

theorem head_sides_iff (hidx : Indexed s) (hshared : Shared s.blocks t docId)
    (hqs : midpoint none (nextPosition t docId parentId none) = .ok qs) :
    (∀ o ∈ kids s parentId, o.blockId ≠ b →
      (Ahead (kids s parentId) none o.position → o.position ≤ qs) ∧
        (¬Ahead (kids s parentId) none o.position → qs ≤ o.position)) ↔
      SameSide s b parentId none := by
  have hsorted : InOrder (kids s parentId) := kids_inOrder hidx
  cases hks : kids s parentId with
  | nil => simp [SameSide,hks]
  | cons z rest =>
    rw [head_position hidx hshared hks] at hqs
    have hside : SameSide s b parentId none ↔ ∀ o ∈ z::rest, o.blockId ≠ b →
        ∀ w ∈ overrun [] z.position,
          Past w o.position ∨ AllFloor z.position ∧ o.position ≤ after z.position := by
      simp only [SameSide,hks,List.head?_cons,Option.mem_def,Option.some.injEq,forall_eq']
      exact ⟨fun h o ho hne w hw => h w hw o ho hne,fun h w hw o ho hne => h o ho hne w hw⟩
    rw [hside]
    refine forall₂_congr (fun o ho => imp_congr_right (fun _ => ?_))
    rw [ahead_head]
    exact head_sides hqs (first_le (hks ▸ hsorted) ho)

/-- The server takes the anchor wherever it is. -/
theorem after_sides_iff (hidx : Indexed s) (hshared : Shared s.blocks t docId) {a : Uuid}
    {anchor : Block} (hanchor : s.blocks.get a = some anchor) (hlt : anchor.position < qs)
    (hgap : ∀ o ∈ kids s parentId, o.position ≤ anchor.position ∨ qs < o.position) :
    (∀ o ∈ kids s parentId, o.blockId ≠ b →
      (Ahead (kids s parentId) (some a) o.position → o.position ≤ qs) ∧
        (¬Ahead (kids s parentId) (some a) o.position → qs ≤ o.position)) ↔
      SameSide s b parentId (some a) := by
  cases hdrop : (kids s parentId).dropWhile (fun b => b.blockId ≠ a) with
  | nil =>
    have hall : ∀ p, Ahead (kids s parentId) (some a) p :=
      fun p => ahead_all (by rw [hdrop]; rfl)
    simp only [SameSide,hdrop,hanchor,Option.mem_def,Option.some.injEq,forall_eq']
    refine forall₂_congr (fun o ho => imp_congr_right (fun _ => ?_))
    rw [(after_sides hlt (hgap o ho)).1]
    exact ⟨fun h => h.1 (hall _),fun h => ⟨fun _ => h,fun hnot => absurd (hall _) hnot⟩⟩
  | cons c rest =>
    obtain ⟨hcid,pre,hks⟩ := dropWhile_anchor hdrop
    have hc : c = anchor := by
      have hmem : c ∈ kids s parentId := by simp [hks]
      have hget := ((mem_kids hidx (shared_named hshared)).mp hmem).1
      rw [hcid,hanchor] at hget
      exact (Option.some.inj hget).symm
    subst hc
    cases rest with
    | nil =>
      have hall : ∀ p, Ahead (kids s parentId) (some a) p :=
        fun p => ahead_all (by rw [hdrop]; rfl)
      have hlast : ∀ o ∈ kids s parentId, o.position ≤ c.position :=
        fun o ho => le_last (hks ▸ kids_inOrder hidx) (hks ▸ ho)
      have hside : SameSide s b parentId (some a) := by
        simp only [SameSide,hdrop]
        intro z hz
        cases hz
      refine iff_of_true (fun o ho _ => ⟨fun _ => ?_,fun hnot => absurd (hall _) hnot⟩) hside
      exact (hlast o ho).trans (le_of_lt hlt)
    | cons z rest =>
      have hside : SameSide s b parentId (some a) ↔ ∀ o ∈ kids s parentId, o.blockId ≠ b →
          ∀ w ∈ overrun c.position z.position, o.position ≤ c.position ∨ Past w o.position := by
        simp only [SameSide,hdrop,List.head?_cons,Option.mem_def,Option.some.injEq,forall_eq']
        exact ⟨fun h o ho hne w hw => h w hw o ho hne,fun h w hw o ho hne => h o ho hne w hw⟩
      rw [hside]
      refine forall₂_congr (fun o ho => imp_congr_right (fun _ => ?_))
      rw [ahead_between hdrop]
      exact between_sides hlt (hgap o ho)

theorem sides_iff (hidx : Indexed s) (hshared : Shared s.blocks t docId) {afterId : Option Uuid}
    (hqs : computePosition t docId parentId afterId = .ok qs) :
    (∀ o ∈ kids s parentId, o.blockId ≠ b →
      (Ahead (kids s parentId) afterId o.position → o.position ≤ qs) ∧
        (¬Ahead (kids s parentId) afterId o.position → qs ≤ o.position)) ↔
      SameSide s b parentId afterId := by
  cases afterId with
  | none => exact head_sides_iff hidx hshared (computePosition_head.mp hqs)
  | some a =>
    obtain ⟨r,hrow,hdoc,rfl,hmid⟩ := computePosition_after.mp hqs
    obtain ⟨hlt,hrows⟩ := after_rank_gap hmid
    obtain ⟨anchor,hanchor,_,hpos⟩ := shared_row hshared hrow hdoc
    rw [← hpos] at hlt hrows
    refine after_sides_iff hidx hshared hanchor hlt (fun o ho => ?_)
    obtain ⟨q,hq,_,hqpos⟩ := kid_row hidx hshared ho
    exact hqpos ▸ hrows q hq

theorem placed_agree_iff {db next : Database} {userId : UserId} {p : Placing}
    {op : BlockOperation} {a : AppliedOp} (hidx : Indexed s) (hrows : EarlyRows db.blocks.rows)
    (hshared : Shared s.blocks db.blocks docId) (hsent : Enqueues s p.event op)
    (happlied : applyOp db docId userId op = .ok (a,next)) :
    OrdersAgree (clientStep s p.event) next.blocks docId p.parentId ↔
      SameSide s p.blockId p.parentId p.afterId := by
  have hnamed := shared_named hshared
  obtain ⟨hidx',v,hv,hblocks⟩ := placing_client hidx hnamed hsent
  obtain ⟨row,hid,hposition,hperm⟩ := placing_server hsent happlied
  simp only [placeOf,Prod.mk.injEq] at hv
  obtain ⟨hvid,hvparent,hvpos⟩ := hv
  have hearly : ∀ o ∈ kids s p.parentId, Early o.position := by
    intro o ho
    obtain ⟨r,hr,_,hpos⟩ := kid_row hidx hshared ho
    exact hpos ▸ hrows r (mem_siblings.mp hr).1
  have hsides : ∀ o ∈ kids s p.parentId,
      (Ahead (kids s p.parentId) p.afterId o.position ↔ o.position < v.position) ∧
        (¬Ahead (kids s p.parentId) p.afterId o.position ↔ v.position < o.position) := by
    intro o ho
    obtain ⟨hahead,hbehind⟩ := rank_sides p.afterId (kids_inOrder hidx) hearly ho
    rw [← hvpos] at hahead hbehind
    refine ⟨⟨hahead,fun hlt => ?_⟩,⟨hbehind,fun hlt h => lt_asymm hlt (hahead h)⟩⟩
    by_contra hnot
    exact lt_asymm hlt (hbehind hnot)
  have hne : ∀ r ∈ others db.blocks docId p.parentId p.blockId, r.position ≠ v.position := by
    refine (kids_others hidx hshared (fun q => q ≠ v.position)).mp (fun o ho _ heq => ?_)
    obtain ⟨hahead,hbehind⟩ := hsides o ho
    rw [heq] at hahead hbehind
    exact lt_irrefl _ (hbehind.mp (fun h => lt_irrefl _ (hahead.mp h)))
  rw [← hid] at hperm hne hblocks hvid
  rw [orders_agree_sides hidx' hshared hblocks hvid hvparent hperm hne,hid,
    ← kids_others hidx hshared (fun q => (q < v.position → q ≤ row.position) ∧
      (v.position < q → row.position ≤ q)),← sides_iff hidx hshared hposition]
  refine forall₂_congr (fun o ho => imp_congr_right (fun _ => ?_))
  rw [(hsides o ho).2,(hsides o ho).1]

/-- The order under the target parent is the same on both sides right after an insert
or a move exactly when the other children stand on the same side of the block. -/
theorem optimistic_order_iff (documents : List DocId) (users : List UserId) (db next : Database)
    (docId : DocId) (userId : UserId) (events : List ClientEvent) (p : Placing)
    (op : BlockOperation) (a : AppliedOp) (hdb : Reachable documents users db)
    (hshared : Shared (clientRun events).blocks db.blocks docId)
    (hsent : Enqueues (clientRun events) p.event op)
    (happlied : applyOp db docId userId op = .ok (a,next)) :
    OrdersAgree (clientStep (clientRun events) p.event) next.blocks docId p.parentId ↔
      SameSide (clientRun events) p.blockId p.parentId p.afterId :=
  placed_agree_iff (run_indexed events) (reachable_early hdb) hshared hsent happlied

/-! ## Inserts after one block -/

/-- There is room after the anchor. -/
theorem sameSide_of_room {b a : Uuid}
    (hchild : ((kids s parentId).dropWhile (fun b => b.blockId ≠ a)).isEmpty = false)
    (hroom : ∀ anchor ∈ ((kids s parentId).dropWhile (fun b => b.blockId ≠ a)).head?,
      ∀ z ∈ ((kids s parentId).dropWhile (fun b => b.blockId ≠ a)).tail.head?,
        overrun anchor.position z.position = none) : SameSide s b parentId (some a) := by
  cases hdrop : (kids s parentId).dropWhile (fun b => b.blockId ≠ a) with
  | nil =>
    rw [hdrop] at hchild
    cases hchild
  | cons anchor rest =>
    rw [hdrop] at hroom
    simp only [SameSide,hdrop]
    intro z hz w hw
    cases (hroom anchor rfl z hz).symm.trans hw

def loading (t : Table) (docId : DocId) : List ClientEvent :=
  [.loadSnapshot docId ((t.rows.filter (fun r => r.docId = docId)).map rowToBlock) (toLex (0,0))]

theorem loading_shared (t : Table) (docId : DocId) :
    Shared (clientRun (loading t docId)).blocks t docId := by
  intro id
  have hget : (clientRun (loading t docId)).blocks.get id = (t.find docId id).map rowToBlock :=
    snapshot_blocks (List.Perm.refl _) _ id
  rw [hget,Option.map_map]
  rfl

def stacked (n : ℕ) : Database :=
  settle 1 1 (.initial [1] [1]) (placeAfter .insert_block 1 none::
    (List.range n).map (fun i => placeAfter .insert_block (i+2) (some 1)))

theorem stacked_reachable (n : ℕ) : Reachable [1] [1] (stacked n) :=
  settle_reachable .initial 1 1 _

def another (n : ℕ) : Placing := .insertBlock (n+2) "paragraph" none (some 1) none

def anotherOp (n : ℕ) : BlockOperation :=
  BlockStore.insertOp (BlockStore.newBlock (clientRun (loading (stacked n).blocks 1)) (n+2)
    "paragraph" none (some 1) none) (some 1)

theorem third_insert_agrees : ∃ a next, applyOp (stacked 1) 1 1 (anotherOp 1) = .ok (a,next) ∧
    OrdersAgree (clientStep (clientRun (loading (stacked 1).blocks 1)) (another 1).event)
      next.blocks 1 none := by
  obtain ⟨⟨a,next⟩,happlied,_⟩ := ok_of_any (x := applyOp (stacked 1) 1 1 (anotherOp 1))
    (p := fun _ => true) (by decide +kernel)
  refine ⟨a,next,happlied,(optimistic_order_iff [1] [1] (stacked 1) next 1 1
    (loading (stacked 1).blocks 1) (another 1) (anotherOp 1) a (stacked_reachable 1) (loading_shared _ 1)
    rfl happlied).mpr ?_⟩
  exact sameSide_of_room (by decide +kernel) (by decide +kernel)

/-- The server's ranks after block 1 are `mi`, `m9` and `m4`. The browser's fourth
block gets `man`. -/
theorem fourth_insert_swapped :
    ¬∀ (documents : List DocId) (users : List UserId) (db next : Database) (docId : DocId)
      (userId : UserId) (events : List ClientEvent) (p : Placing) (op : BlockOperation)
      (a : AppliedOp), Reachable documents users db →
      Shared (clientRun events).blocks db.blocks docId → Enqueues (clientRun events) p.event op →
      applyOp db docId userId op = .ok (a,next) →
        OrdersAgree (clientStep (clientRun events) p.event) next.blocks docId p.parentId := by
  intro hall
  obtain ⟨⟨a,next⟩,happlied,hpositions⟩ := ok_of_any
    (x := applyOp (stacked 2) 1 1 (anotherOp 2))
    (p := fun r => ∀ x ∈ siblings r.2.blocks 1 none,
      (x.blockId = 3 → x.position = ['m','9']) ∧ (x.blockId = 4 → x.position = ['m','4']))
    (by decide +kernel)
  have hpositions := of_decide_eq_true hpositions
  obtain ⟨listed,hlist,hids⟩ := hall [1] [1] (stacked 2) next 1 1 (loading (stacked 2).blocks 1)
    (another 2) (anotherOp 2) a (stacked_reachable 2) (loading_shared _ 1) rfl happlied
  have horder : idsUnder (clientStep (clientRun (loading (stacked 2).blocks 1))
      (another 2).event) none = [1,3,4,2] := by decide +kernel
  have hmap : listed.map BlockRow.blockId = [1,3,4,2] := hids.symm.trans horder
  obtain ⟨x,listed,rfl,_,hmap⟩ := List.map_eq_cons_iff.mp hmap
  obtain ⟨y,listed,rfl,hy,hmap⟩ := List.map_eq_cons_iff.mp hmap
  obtain ⟨z,listed,rfl,hz,_⟩ := List.map_eq_cons_iff.mp hmap
  have hyz : y.position ≤ z.position := by
    have hsorted := (List.pairwise_cons.mp hlist.2).2
    exact (List.pairwise_cons.mp hsorted).1 z List.mem_cons_self
  rw [(hpositions y (hlist.1.mem_iff.mp (by simp))).1 hy,
    (hpositions z (hlist.1.mem_iff.mp (by simp))).2 hz] at hyz
  exact absurd hyz (by decide)

end BlockDocs.OptimisticOrder
