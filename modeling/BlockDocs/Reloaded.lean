import BlockDocs.ConvergedPages
import BlockDocs.VisibleBlocks

/-!
# Reading on and loading again

What a page lists is decided by the places of its blocks, as long as no two siblings share a
position. A page that has read everything then lists the document as a page that loads it now.
-/

set_option autoImplicit false

namespace BlockDocs.Reloaded
open BlockDocs.InsertionMap BlockDocs.LexoRank BlockDocs.Wire BlockDocs.DocBlocks
open BlockDocs.ApplyOps BlockDocs.PostOperations BlockDocs.BlockStore BlockDocs.ClientRun
open BlockDocs.ClientIndex
open BlockDocs.SortedListing BlockDocs.ForestWalk BlockDocs.VisibleBlocks
open BlockDocs.ConvergedPages BlockDocs.LogReplicas

variable {docId : DocId} {documents : List DocId} {users : List UserId}
variable {first last : Database} {log rest : List WireOp} {s t : Store} {m : Blocks}

/-! ## Listings of equal maps -/

def SiblingsApart (m : Blocks) : Prop :=
  ∀ x y b c, m.get x = some b → m.get y = some c → b.parentId = c.parentId →
    b.position = c.position → x = y

def shown (b : Block) : Uuid × Node Uuid Rank String := (b.blockId,blockNode b)

theorem position_nodes (h : pageNodes s.blocks = pageNodes t.blocks) (id : Uuid) :
    positionOf s.blocks id = positionOf t.blocks id := by
  have hid := congrArg (fun nodes => ((nodes id).map Node.place).getD []) h
  simp only [pageNodes,Option.map_map] at hid
  exact hid

theorem mem_nodes (hnamed : Named s.blocks) (o : Option Uuid) (id : Uuid) :
    id ∈ childIds s.blocks o ↔ ∃ node, pageNodes s.blocks id = some node ∧ node.parent = o := by
  rw [mem_childIds hnamed]
  constructor
  · rintro ⟨b,hb,hp⟩
    exact ⟨blockNode b,by simp [pageNodes,hb],hp⟩
  · rintro ⟨node,hnode,hp⟩
    obtain ⟨b,hb,rfl⟩ := Option.map_eq_some_iff.mp hnode
    exact ⟨b,hb,hp⟩

theorem idsUnder_eq (hs : Indexed s) (ht : Indexed t) (hsnamed : Named s.blocks)
    (htnamed : Named t.blocks) (hapart : SiblingsApart s.blocks)
    (h : pageNodes s.blocks = pageNodes t.blocks) (o : Option Uuid) :
    idsUnder s o = idsUnder t o := by
  have hlist := idsUnder_listing hs o
  have hother := idsUnder_listing ht o
  have hsame : (childIds s.blocks o).Perm (childIds t.blocks o) := by
    rw [List.perm_ext_iff_of_nodup (nodup_childIds hsnamed o) (nodup_childIds htnamed o)]
    intro id
    rw [mem_nodes hsnamed,mem_nodes htnamed,h]
  have hposition : positionOf t.blocks = positionOf s.blocks :=
    funext fun id => (position_nodes h id).symm
  rw [hposition] at hother
  refine List.Perm.eq_of_pairwise ?_ hlist.2 hother.2 ((hlist.1.trans hsame).trans hother.1.symm)
  intro x y hx hy hxy hyx
  obtain ⟨b,hb,hbp⟩ := (mem_childIds hsnamed).mp (hlist.1.mem_iff.mp hx)
  obtain ⟨c,hc,hcp⟩ := (mem_childIds hsnamed).mp
    (hsame.mem_iff.mpr (hother.1.mem_iff.mp hy))
  refine hapart x y b c hb hc (hbp.trans hcp.symm) ?_
  have heq := le_antisymm hxy hyx
  simpa [positionOf,hb,hc] using heq

theorem shown_eq (hsnamed : Named s.blocks) (htnamed : Named t.blocks)
    (h : pageNodes s.blocks = pageNodes t.blocks) (id : Uuid) :
    (s.blocks.get id).map shown = (t.blocks.get id).map shown := by
  have hid := congrFun h id
  rw [pageNodes,pageNodes] at hid
  cases hs : s.blocks.get id with
  | none =>
    rw [hs] at hid
    rw [Option.map_eq_none_iff.mp hid.symm]
  | some b =>
    rw [hs] at hid
    obtain ⟨c,hc,hbc⟩ := Option.map_eq_some_iff.mp hid.symm
    rw [hc]
    simp [shown,hbc,hsnamed id b hs,htnamed id c hc]

theorem listings_eq (hs : Indexed s) (ht : Indexed t) (hsnamed : Named s.blocks)
    (htnamed : Named t.blocks) (hapart : SiblingsApart s.blocks)
    (h : pageNodes s.blocks = pageNodes t.blocks) (fuel : ℕ) :
    (flattenBlocks fuel s.rootOrder s.childrenMap s.blocks).map (List.map shown) =
      (flattenBlocks fuel t.rootOrder t.childrenMap t.blocks).map (List.map shown) := by
  have hkids : under (s.rootOrder,s.childrenMap) = under (t.rootOrder,t.childrenMap) :=
    funext fun o => idsUnder_eq hs ht hsnamed htnamed hapart h o
  rw [flattenBlocks,flattenBlocks,hkids]
  exact walkAll_names (shown_eq hsnamed htnamed h) fuel

/-! ## The stores of a page -/

theorem page_run (h : Page docId first log last s rest) : ∃ events, s = clientRun events := by
  have hnext : ∀ {u v : Store} (e : ClientEvent), v = clientStep u e →
      (∃ events, u = clientRun events) → ∃ events, v = clientRun events := by
    rintro u v e hv ⟨events,rfl⟩
    exact ⟨events++[e],by rw [hv,clientRun,clientRun,List.foldl_append]; rfl⟩
  induction h with
  | @loadSnapshot before ahead later db rows _ _ _ _ lastStreamId =>
    exact ⟨[.loadSnapshot docId (rows.map rowToBlock) lastStreamId],rfl⟩
  | @applyRemoteOps s frame rest streamId _ ih => exact hnext (.applyRemoteOps frame streamId) rfl ih
  | replayed _ _ ih => exact ih
  | @insertBlock s rest blockId type parentId afterId content _ _ ih =>
    exact hnext (.insertBlock blockId type parentId afterId content) rfl ih
  | @deleteBlock s rest blockId _ _ ih => exact hnext (.deleteBlock blockId) rfl ih
  | @moveBlock s rest blockId parentId afterId _ _ ih =>
    exact hnext (.moveBlock blockId parentId afterId) rfl ih
  | @updateAttrs s rest blockId attrs _ ih => exact hnext (.updateAttrs blockId attrs) rfl ih
  | @updateContent s rest blockId content _ ih => exact hnext (.updateContent blockId content) rfl ih
  | @handleAck s rest clientSeq results _ ih => exact hnext (.handleAck clientSeq results) rfl ih

theorem page_indexed (h : Page docId first log last s rest) : Indexed s := by
  obtain ⟨events,rfl⟩ := page_run h
  exact run_indexed events

theorem named_remote (h : Named m) (w : WireOp) : Named (applyRemoteOp m w) := by
  unfold applyRemoteOp
  split
  · exact named_set h rfl
  · exact named_promote (named_delete h)
  · exact named_adjust (fun _ => rfl) h
  · exact named_adjust (fun _ => rfl) h
  · exact named_adjust (fun _ => rfl) h

theorem named_frame (frame : List WireOp) (h : Named m) : Named (frame.foldl applyRemoteOp m) := by
  induction frame generalizing m with
  | nil => exact h
  | cons w frame ih => exact ih (named_remote h w)

theorem named_acknowledged (results : List OpResult) (h : Named m) :
    Named (results.foldl acknowledge m) := by
  induction results generalizing m with
  | nil => exact h
  | cons r results ih => exact ih (named_adjust (fun _ => rfl) h)

theorem named_loaded {rows : List BlockRow} {db : Database}
    (hrows : rows.Perm (db.blocks.rows.filter (fun r => r.docId = docId)))
    (lastStreamId : StreamId) :
    Named (Store.loadSnapshot docId (rows.map rowToBlock) lastStreamId).blocks := by
  intro id b hb
  rw [snapshot_blocks hrows] at hb
  obtain ⟨row,hrow,rfl⟩ := Option.map_eq_some_iff.mp hb
  exact ((find_some_iff _ _ _ _).mp hrow).2.2

theorem page_named (h : Page docId first log last s rest) : Named s.blocks := by
  induction h with
  | loadSnapshot _ _ _ hrows lastStreamId => exact named_loaded hrows lastStreamId
  | @applyRemoteOps s frame rest streamId _ ih =>
    rw [Store.applyRemoteOps,reindexed_blocks]
    exact named_frame frame ih
  | replayed _ _ ih => exact ih
  | insertBlock _ _ _ _ _ _ ih => exact named_set ih rfl
  | @deleteBlock s rest blockId _ _ ih =>
    rw [Store.deleteBlock]
    split
    · exact ih
    · exact named_promote (named_delete ih)
  | @moveBlock s rest blockId parentId afterId _ _ ih =>
    rw [Store.moveBlock]
    split
    · exact ih
    · next existing hget => exact named_set ih (ih _ existing hget)
  | @updateAttrs s rest blockId attrs _ ih =>
    rw [Store.updateAttrs]
    split
    · exact ih
    · next existing hget => exact named_set ih (ih _ existing hget)
  | @updateContent s rest blockId content _ ih =>
    rw [Store.updateContent]
    split
    · exact ih
    · next existing hget => exact named_set ih (ih _ existing hget)
  | handleAck _ results _ ih => exact named_acknowledged results ih

/-! ## The server's table -/

/-- No two blocks at the root share a position, which the unique index does not see to. -/
def RootsApart (t : Table) (docId : DocId) : Prop :=
  ∀ r ∈ t.rows, ∀ q ∈ t.rows, r.docId = docId → q.docId = docId → r.parentId = none →
    q.parentId = none → r.position = q.position → r = q

def NoneCascaded (t : Table) (docId : DocId) (log : List WireOp) : Prop :=
  ∀ before w after, log = before++w::after → kind w.payload = .insert_block →
    (∀ v ∈ after, v.blockId = w.blockId → kind v.payload ≠ .delete_block) →
      Present docId t w.blockId

theorem rows_apart {t : Table} (hroots : RootsApart t docId) {r q : BlockRow} (hr : r ∈ t.rows)
    (hq : q ∈ t.rows) (hrdoc : r.docId = docId) (hqdoc : q.docId = docId)
    (hparent : r.parentId = q.parentId) (hposition : r.position = q.position) : r = q := by
  cases hp : r.parentId with
  | none => exact hroots r hr q hq hrdoc hqdoc hp (hparent.symm.trans hp) hposition
  | some p =>
    by_contra hne
    have hclash : Clash r q :=
      ⟨hrdoc.trans hqdoc.symm,hparent,by rw [hp]; exact Option.some_ne_none p,hposition⟩
    have : Std.Symm (fun a b : BlockRow => ¬Clash a b) := ⟨by
      rintro a b hab ⟨hdoc,hpar,hnone,hpos⟩
      exact hab ⟨hdoc.symm,hpar.symm,by rw [← hpar]; exact hnone,hpos.symm⟩⟩
    exact t.spaced.forall hr hq hne hclash

theorem loaded_apart {rows : List BlockRow} (hroots : RootsApart last.blocks docId)
    (hrows : rows.Perm (last.blocks.rows.filter (fun r => r.docId = docId)))
    (lastStreamId : StreamId) :
    SiblingsApart (Store.loadSnapshot docId (rows.map rowToBlock) lastStreamId).blocks := by
  intro x y b c hb hc hparent hposition
  rw [snapshot_blocks hrows] at hb hc
  obtain ⟨r,hr,rfl⟩ := Option.map_eq_some_iff.mp hb
  obtain ⟨q,hq,rfl⟩ := Option.map_eq_some_iff.mp hc
  obtain ⟨hrmem,hrdoc,rfl⟩ := (find_some_iff _ _ _ _).mp hr
  obtain ⟨hqmem,hqdoc,rfl⟩ := (find_some_iff _ _ _ _).mp hq
  exact congrArg BlockRow.blockId
    (rows_apart hroots hrmem hqmem hrdoc hqdoc hparent hposition)

/-- A page that has read the log lists the same blocks in the same places and of the same types
as a page that loads the document now, unless a cascade has left it a block too many or two
blocks at the root share a position. -/
theorem read_as_reloaded {rows : List BlockRow}
    (hserved : Served docId (.initial documents users) log last)
    (hpage : Page docId (.initial documents users) log last s [])
    (hnone : NoneCascaded last.blocks docId log) (hroots : RootsApart last.blocks docId)
    (hrows : rows.Perm (last.blocks.rows.filter (fun r => r.docId = docId)))
    (lastStreamId : StreamId) (fuel : ℕ) :
    (flattenBlocks fuel s.rootOrder s.childrenMap s.blocks).map (List.map shown) =
      (flattenBlocks fuel (Store.loadSnapshot docId (rows.map rowToBlock) lastStreamId).rootOrder
        (Store.loadSnapshot docId (rows.map rowToBlock) lastStreamId).childrenMap
        (Store.loadSnapshot docId (rows.map rowToBlock) lastStreamId).blocks).map
          (List.map shown) := by
  have hloaded := pageNodes_loaded hrows lastStreamId
  have hnodes : pageNodes (Store.loadSnapshot docId (rows.map rowToBlock) lastStreamId).blocks =
      pageNodes s.blocks := by
    rw [hloaded]
    funext b
    cases hb : serverNodes last.blocks docId b with
    | some node => exact (page_places hserved hpage hb).symm
    | none =>
      have hgone : s.blocks.get b = none := by
        by_contra hblock
        obtain ⟨before,w,after,hlog,rfl,hkind,hafter⟩ := page_survives hpage hblock
        obtain ⟨r,hr,hdoc,hid⟩ := hnone before w after hlog hkind hafter
        have hfind := (find_some_iff last.blocks docId w.blockId r).mpr ⟨hr,hdoc,hid⟩
        rw [serverNodes,hfind] at hb
        cases hb
      rw [pageNodes,hgone]
      rfl
  exact (listings_eq ⟨rfl,rfl⟩ (page_indexed hpage) (named_loaded hrows lastStreamId)
    (page_named hpage) (loaded_apart hroots hrows lastStreamId) hnodes fuel).symm

theorem own_insert_reloaded : ∃ posted s,
    postOperations (.initial [1] [1]) 1 1 [insertUnder 7 none] = some posted ∧
    Page 1 (.initial [1] [1]) posted.wireOps posted.database s [] ∧
    (flattenBlocks 3 s.rootOrder s.childrenMap s.blocks).map (List.map shown) =
      (flattenBlocks 3
        (Store.loadSnapshot 1 (posted.database.blocks.rows.map rowToBlock) (toLex (1,0))).rootOrder
        (Store.loadSnapshot 1 (posted.database.blocks.rows.map rowToBlock) (toLex (1,0))).childrenMap
        (Store.loadSnapshot 1 (posted.database.blocks.rows.map rowToBlock) (toLex (1,0))).blocks).map
          (List.map shown) := by
  have h : ((postOperations (.initial [1] [1]) 1 1 [insertUnder 7 none]).any (fun posted =>
      Comes posted.wireOps .insert_block 7 ∧
        (∀ w ∈ posted.wireOps, Present 1 posted.database.blocks w.blockId) ∧
        (∀ r ∈ posted.database.blocks.rows, r.docId = 1) ∧
        posted.database.blocks.rows.length = 1)) = true := by decide +kernel
  obtain ⟨posted,hposted,hfacts⟩ := (Option.any_eq_true _ _).mp h
  obtain ⟨hcomes,hpresent,hdoc,hone⟩ := of_decide_eq_true hfacts
  obtain ⟨hserved,s,hpage⟩ := own_insert posted hposted hcomes
  obtain ⟨row,hrow⟩ := List.length_eq_one_iff.mp hone
  refine ⟨posted,s,hposted,hpage,read_as_reloaded hserved hpage ?_ ?_ ?_ (toLex (1,0)) 3⟩
  · intro before w after hlog _ _
    exact hpresent w (by rw [hlog]; simp)
  · intro r hr q hq _ _ _ _ _
    rw [hrow] at hr hq
    rw [List.mem_singleton.mp hr,List.mem_singleton.mp hq]
  · rw [List.filter_eq_self.mpr (fun r hr => decide_eq_true (hdoc r hr))]

end BlockDocs.Reloaded
