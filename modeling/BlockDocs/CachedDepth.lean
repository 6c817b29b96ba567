import BlockDocs.BlockForest
import BlockDocs.Reachability
import BlockDocs.SortedListing

/-!
# The cached depth

Each row keeps its depth, and the listing of a document is sorted by it. A move
writes the depth of the moved row alone, so the rows below it keep the depth
they had under its old parent.
-/

set_option autoImplicit false

namespace BlockDocs.CachedDepth
open BlockDocs.LexoRank BlockDocs.Wire BlockDocs.DocBlocks BlockDocs.ApplyOps
open BlockDocs.BlockForest BlockDocs.GuardedRun BlockDocs.Reachability BlockDocs.SortedListing

def Cached (rows : List BlockRow) : Prop :=
  ∀ r ∈ rows, (r.parentId = none → r.depth = 0) ∧
    ∀ q ∈ rows, r.parentId = some q.blockId → r.depth = q.depth+1

/-! ## The listing of a document -/

def nullsFirst : Option Uuid → WithBot Uuid
  | none => ⊥
  | some p => p

/-- `ORDER BY depth ASC, parent_id NULLS FIRST, position ASC`. -/
def orderKey (r : BlockRow) : ℕ ×ₗ WithBot Uuid ×ₗ Rank :=
  toLex (r.depth,toLex (nullsFirst r.parentId,r.position))

def GetBlocks (t : Table) (docId : DocId) (listed : List BlockRow) : Prop :=
  Listing orderKey (t.rows.filter (fun r => r.docId = docId)) listed

def ParentsFirst (listed : List BlockRow) : Prop :=
  ∀ pre r post, listed = pre++r::post → ∀ p ∈ r.parentId, ∃ q ∈ pre, q.blockId = p

def DepthSound (db : Database) : Prop :=
  Cached db.blocks.rows ∧ ∀ docId listed, GetBlocks db.blocks docId listed → ParentsFirst listed

theorem orderKey_depth {r s : BlockRow} (h : orderKey r ≤ orderKey s) : r.depth ≤ s.depth := by
  rcases Prod.Lex.le_iff.mp h with hlt | ⟨heq,_⟩
  · exact hlt.le
  · exact heq.le

theorem parents_first {t : Table} (hcached : Cached t.rows) (hdoc : InDocument t.rows)
    {docId : DocId} {listed : List BlockRow} (h : GetBlocks t docId listed) :
    ParentsFirst listed := by
  rintro pre r post rfl p hp
  have hmem : ∀ s, s ∈ pre++r::post ↔ s ∈ t.rows ∧ s.docId = docId := by
    intro s
    rw [h.1.mem_iff,List.mem_filter,decide_eq_true_eq]
  obtain ⟨hr,hrdoc⟩ := (hmem r).mp (List.mem_append_right _ List.mem_cons_self)
  obtain ⟨q,hq,hid⟩ := t.parented r hr p hp
  have hqdoc : q.docId = docId := (hdoc r hr p hp q hq hid).trans hrdoc
  have hbelow : r.depth = q.depth+1 := (hcached r hr).2 q hq (hid ▸ hp)
  refine ⟨q,?_,hid⟩
  rcases List.mem_append.mp ((hmem q).mpr ⟨hq,hqdoc⟩) with hpre | hpost
  · exact hpre
  · have hsorted := (List.pairwise_append.mp h.2).2.1
    have hle : orderKey r ≤ orderKey q := by
      rcases List.mem_cons.mp hpost with rfl | hpost
      · exact le_refl _
      · exact (List.pairwise_cons.mp hsorted).1 q hpost
    have hdepth := orderKey_depth hle
    omega

/-! ## Inserts, deletes and updates -/

theorem cached_append {t : Table} {row : BlockRow} (h : Cached t.rows)
    (hfresh : ∀ r ∈ t.rows, r.blockId ≠ row.blockId)
    (hdepth : parentDepth t row.docId row.parentId = .ok row.depth) :
    Cached (t.rows++[row]) := by
  have hnew : ∀ {r : BlockRow}, (∀ p ∈ r.parentId, ∃ q ∈ t.rows, q.blockId = p) →
      r.parentId ≠ some row.blockId := by
    intro r hparent hself
    obtain ⟨q,hq,hid⟩ := hparent _ hself
    exact hfresh q hq hid
  intro r hr
  rcases List.mem_append.mp hr with hr | hr
  · refine ⟨(h r hr).1,fun q hq hp => ?_⟩
    rcases List.mem_append.mp hq with hq | hq
    · exact (h r hr).2 q hq hp
    · rw [List.mem_singleton.mp hq] at hp
      exact absurd hp (hnew (t.parented r hr))
  · obtain rfl := List.mem_singleton.mp hr
    constructor
    · intro hroot
      rw [hroot] at hdepth
      exact (Except.ok.inj hdepth).symm
    · intro q hq hp
      rw [hp] at hdepth
      obtain ⟨q',hq',_,hid',hd⟩ := parentDepth_found hdepth
      rcases List.mem_append.mp hq with hq | hq
      · rw [row_unique t hq hq' hid'.symm]
        exact hd
      · rw [List.mem_singleton.mp hq] at hid'
        exact absurd hid' (hfresh q' hq')

theorem cached_sublist {rows next : List BlockRow} (h : Cached rows) (hsub : next.Sublist rows) :
    Cached next :=
  fun r hr => ⟨(h r (hsub.subset hr)).1,fun q hq => (h r (hsub.subset hr)).2 q (hsub.subset hq)⟩

theorem cached_samePlace {rows next : List BlockRow} (h : Cached rows)
    (hsame : List.Forall₂ SamePlace rows next) : Cached next := by
  intro s hs
  obtain ⟨r,hr,_,_,hparent,_,hdepth,_⟩ := samePlace_mem hsame hs
  rw [hparent,hdepth]
  refine ⟨(h r hr).1,fun q hq hp => ?_⟩
  obtain ⟨q₀,hq₀,hid,_,_,_,hqdepth,_⟩ := samePlace_mem hsame hq
  rw [hqdepth]
  exact (h r hr).2 q₀ hq₀ (hid ▸ hp)

/-! ## Moves -/

section Move

variable {t : Table} {row : BlockRow} {parentId : Option Uuid} {position : Rank} {depth : ℕ}
  {version : ℤ}

theorem cached_move_iff (h : Cached t.rows) (hrow : row ∈ t.rows)
    (hdepth : parentDepth t row.docId parentId = .ok depth) :
    Cached (afterMove t row parentId position depth version) ↔
      parentId ≠ some row.blockId ∧
        ∀ c ∈ t.rows, c.parentId = some row.blockId → depth = row.depth := by
  have hmem : ∀ {s}, s ∈ afterMove t row parentId position depth version ↔
      s = movedRow parentId position depth version row ∨ s ∈ t.rows ∧ s.blockId ≠ row.blockId :=
    mem_written hrow
  have hmoved := hmem.mpr (Or.inl rfl)
  -- in the table as it was no row is its own parent
  have hother : ∀ c ∈ t.rows, c.parentId = some row.blockId → c.blockId ≠ row.blockId := by
    intro c hc hp hid
    obtain rfl := row_unique t hc hrow hid
    have hself := (h c hc).2 c hc hp
    omega
  constructor
  · intro hnext
    constructor
    · intro hself
      have hd : depth = depth+1 := (hnext _ hmoved).2 _ hmoved hself
      omega
    · intro c hc hp
      have hbefore : c.depth = row.depth+1 := (h c hc).2 row hrow hp
      have hafter : c.depth = depth+1 :=
        (hnext c (hmem.mpr (Or.inr ⟨hc,hother c hc hp⟩))).2 _ hmoved hp
      omega
  · rintro ⟨hself,hchildren⟩ s hs
    rcases hmem.mp hs with rfl | ⟨hs,hne⟩
    · constructor
      · intro hroot
        have hroot' : parentId = none := hroot
        rw [hroot'] at hdepth
        exact (Except.ok.inj hdepth).symm
      · intro q hq hp
        have hp' : parentId = some q.blockId := hp
        rcases hmem.mp hq with rfl | ⟨hq,_⟩
        · exact absurd hp' hself
        · rw [hp'] at hdepth
          obtain ⟨q',hq',_,hid,hd⟩ := parentDepth_found hdepth
          rw [row_unique t hq hq' hid.symm]
          exact hd
    · refine ⟨(h s hs).1,fun q hq hp => ?_⟩
      rcases hmem.mp hq with rfl | ⟨hq,_⟩
      · have hbefore : s.depth = row.depth+1 := (h s hs).2 row hrow hp
        show s.depth = depth+1
        rw [hchildren s hs hp]
        exact hbefore
      · exact (h s hs).2 q hq hp

end Move

/-! ## Runs of operations -/

/-- A move of a block under itself, or of one that has children to a place of
another depth. -/
def Reshapes (db : Database) (docId : DocId) (op : BlockOperation) : Prop :=
  op.op = .move_block ∧ ∃ row ∈ db.blocks.rows, op.blockId = .uuid row.blockId ∧
    row.docId = docId ∧ ∃ parentId, op.payload.parentId = .ofOption parentId ∧
      (parentId = some row.blockId ∨ (∃ c ∈ db.blocks.rows, c.parentId = some row.blockId) ∧
        ∃ depth, parentDepth db.blocks docId parentId = .ok depth ∧ depth ≠ row.depth)

theorem leaf_not_reshaped {db : Database} {docId : DocId} {b : Uuid} {p : Option Uuid}
    (hleaf : ∀ c ∈ db.blocks.rows, c.parentId ≠ some b) (hself : p ≠ some b) :
    ¬Reshapes db docId (moveUnder b p) := by
  rintro ⟨_,row,_,hid,_,p',hp,hbad⟩
  have hb : b = row.blockId := IdField.uuid.inj hid
  have hsame : p = p' := ofOption_inj hp
  rw [← hb,← hsame] at hbad
  rcases hbad with hbad | ⟨⟨c,hc,hchild⟩,_⟩
  · exact hself hbad
  · exact hleaf c hc hchild

theorem cached_applied {db next : Database} {docId : DocId} {userId : UserId}
    {op : BlockOperation} {a : AppliedOp} (h : Cached db.blocks.rows)
    (happlied : Applied db docId userId op a next) :
    Cached next.blocks.rows ↔ ¬Reshapes db docId op := by
  have hother : op.op ≠ .move_block → Cached next.blocks.rows →
      (Cached next.blocks.rows ↔ ¬Reshapes db docId op) :=
    fun hop hc => iff_of_true hc (fun hr => hop hr.1)
  cases happlied with
  | insert hop hid hparent hafter hfresh hdepth hposition hwrite hrefs =>
    apply hother (by simp [hop])
    rw [write_rows hwrite]
    exact cached_append h hfresh hdepth
  | gone hop => exact hother (by simp [hop]) h
  | delete hop hid hrow =>
    exact hother (by simp [hop]) (cached_sublist h (delete_sublist _ _ hrow))
  | @move row parentId afterId depth position t hop hid hparent hafter hrow hdoc hversion hdepth
      hposition hwrite huser =>
    subst hdoc
    have hrows : t.rows = afterMove db.blocks row parentId position depth (row.version+1) :=
      write_rows hwrite
    show Cached t.rows ↔ _
    rw [hrows,cached_move_iff h hrow hdepth]
    constructor
    · rintro ⟨hself,hchildren⟩ ⟨_,row',hrow',hid',_,p,hp,hbad⟩
      obtain rfl := row_unique db.blocks hrow hrow' (IdField.uuid.inj (hid.symm.trans hid'))
      obtain rfl : parentId = p := by
        rw [read_ok,hp] at hparent
        exact (ofOption_inj hparent).symm
      rcases hbad with hbad | ⟨⟨c,hc,hpc⟩,d,hd,hne⟩
      · exact hself hbad
      · have heq : depth = d := Except.ok.inj (hdepth.symm.trans hd)
        exact hne (heq.symm.trans (hchildren c hc hpc))
    · intro hout
      refine ⟨fun hself => hout ?_,fun c hc hpc => ?_⟩
      · exact ⟨hop,row,hrow,hid,rfl,parentId,read_ok.mp hparent,Or.inl hself⟩
      · by_contra hne
        exact hout ⟨hop,row,hrow,hid,rfl,parentId,read_ok.mp hparent,
          Or.inr ⟨⟨c,hc,hpc⟩,depth,hdepth,hne⟩⟩
  | attrs hop =>
    exact hother (by simp [hop]) (cached_samePlace h (setRow_forall₂ _ _ (contentRow_place _ _) _))
  | content hop =>
    exact hother (by simp [hop]) (cached_samePlace h (setRow_forall₂ _ _ (contentRow_place _ _) _))

theorem call_reachable {documents : List DocId} {users : List UserId} {db next : Database}
    {c : Call} (h : Reachable documents users db) (hcall : call db c = some next) :
    Reachable documents users next := by
  unfold call at hcall
  split at hcall
  · next hok =>
    cases hcall
    exact .operation h hok
  · cases hcall
    exact h

theorem cached_step {db next : Database} {c : Call} (h : Cached db.blocks.rows)
    (hcall : call db c = some next) (hout : ¬Reshapes db c.docId c.op) :
    Cached next.blocks.rows := by
  unfold call at hcall
  split at hcall
  · next hok =>
    cases hcall
    exact (cached_applied h (applyOp_applied hok)).mpr hout
  · cases hcall
    exact h

theorem depthSound_iff {documents : List DocId} {users : List UserId} {db : Database}
    (h : Reachable documents users db) : DepthSound db ↔ Cached db.blocks.rows :=
  ⟨fun hs => hs.1,fun hc => ⟨hc,fun _ _ => parents_first hc (reachable_kept inDocument_kept h)⟩⟩

/-- A run keeps the depths right as long as no move reshapes a subtree, and an
operation applied to a state it reaches keeps them right exactly when it does not. -/
theorem depth_throughout (documents : List DocId) (users : List UserId) (calls : List Call) :
    (Along call (fun db c => ¬Reshapes db c.docId c.op) (.initial documents users) calls →
      Throughout call DepthSound (.initial documents users) calls) ∧
    ∀ db docId userId op a next, exec call (.initial documents users) calls = some db →
      DepthSound db → applyOp db docId userId op = .ok (a,next) →
      (DepthSound next ↔ ¬Reshapes db docId op) := by
  constructor
  · intro h
    have hstep : ∀ db c next, (Reachable documents users db ∧ Cached db.blocks.rows) →
        call db c = some next → ¬Reshapes db c.docId c.op →
        Reachable documents users next ∧ Cached next.blocks.rows :=
      fun db c next hdb hcall hout => ⟨call_reachable hdb.1 hcall,cached_step hdb.2 hcall hout⟩
    have hempty : Cached (Database.initial documents users).blocks.rows :=
      fun r hr => absurd hr List.not_mem_nil
    exact throughout_mono (fun db hdb => (depthSound_iff hdb.1).mpr hdb.2)
      (throughout_of_along hstep ⟨.initial,hempty⟩ h)
  · intro db docId userId op a next hrun hsound hok
    have hdb : Reachable documents users db :=
      exec_invariant (fun _ _ _ => call_reachable) .initial hrun
    rw [depthSound_iff (.operation hdb hok)]
    exact cached_applied hsound.1 (applyOp_applied hok)

def inserted : List Call :=
  [⟨1,1,insertUnder 1 none⟩,⟨1,1,insertUnder 2 (some 1)⟩,⟨1,1,insertUnder 3 none⟩]

theorem depth_throughout_leaf_moved :
    Throughout call DepthSound (.initial [1] [1]) (inserted++[⟨1,1,moveUnder 2 (some 3)⟩]) := by
  apply (depth_throughout [1] [1] _).1
  have hinsert : ∀ (db : Database) (b : Uuid) (p : Option Uuid),
      ¬Reshapes db 1 (insertUnder b p) := fun db b p h => by cases h.1
  refine along_cons rfl (hinsert _ _ _) (along_cons rfl (hinsert _ _ _)
    (along_cons rfl (hinsert _ _ _) (along_cons rfl ?_ trivial)))
  exact leaf_not_reshaped (by decide +kernel) (by decide)

/-- Block 1 moves below block 3 with its child 2, which keeps depth 1 and is then
listed before its parent. -/
theorem moved_subtree_depth_stale :
    ∃ db, exec call (.initial [1] [1]) (inserted++[⟨1,1,moveUnder 1 (some 3)⟩]) = some db ∧
      ¬DepthSound db ∧ ∃ r ∈ db.blocks.rows, ∃ c ∈ db.blocks.rows,
        c.parentId = some r.blockId ∧ orderKey c < orderKey r := by
  have h : ((exec call (.initial [1] [1]) (inserted++[⟨1,1,moveUnder 1 (some 3)⟩])).any
      (fun db => ∃ r ∈ db.blocks.rows, ∃ c ∈ db.blocks.rows, c.parentId = some r.blockId ∧
        c.depth ≠ r.depth+1 ∧ orderKey c < orderKey r)) = true := by decide +kernel
  obtain ⟨db,hdb,hfacts⟩ := (Option.any_eq_true _ _).mp h
  obtain ⟨r,hr,c,hc,hp,hdepth,hlt⟩ := of_decide_eq_true hfacts
  exact ⟨db,hdb,fun hs => hdepth ((hs.1 c hc).2 r hr hp),r,hr,c,hc,hp,hlt⟩

end BlockDocs.CachedDepth
