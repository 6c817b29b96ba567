import BlockDocs.ClientIndex

/-!
# What a nack takes back

A nack without a block deletes the block that it names. That takes back the insert
of a new block. After the other actions the block was there before, with its old
place, content and children, and the store has kept none of them.
-/

set_option autoImplicit false

namespace BlockDocs.NackRollback
open BlockDocs.InsertionMap BlockDocs.LexoRank BlockDocs.Wire BlockDocs.BlockStore
open BlockDocs.ClientRun BlockDocs.ClientIndex

/-! ## Rejections without a block -/

def Names (conflicts : List ConflictInfo) (b : Uuid) : Prop := ∃ c ∈ conflicts, c.blockId = .uuid b

def Spares (conflicts : List ConflictInfo) (m : Blocks) : Prop :=
  ∀ b, Names conflicts b → m.get b = none

def Blockless (conflicts : List ConflictInfo) : Prop := ∀ c ∈ conflicts, c.current = none

variable {conflicts : List ConflictInfo} {m : Blocks} {b : Uuid} {v : Block}

theorem reject_uuid {c : ConflictInfo} (h : c.blockId = .uuid b) (hnone : c.current = none)
    (m : Blocks) : reject m c = m.delete b := by
  rw [reject,h,hnone]

theorem reject_other {c : ConflictInfo} (h : ∀ b, c.blockId ≠ .uuid b) (m : Blocks) :
    reject m c = m := by
  unfold reject
  split
  · next blockId hid => exact absurd hid (h blockId)
  · rfl

theorem get_rejected (h : Blockless conflicts) (m : Blocks) (j : Uuid) (hj : ¬Names conflicts j) :
    (conflicts.foldl reject m).get j = m.get j := by
  induction conflicts generalizing m with
  | nil => rfl
  | cons c cs ih =>
    have hrest := ih (fun d hd => h d (List.mem_cons_of_mem _ hd)) (reject m c)
      (fun ⟨d,hd,hid⟩ => hj ⟨d,List.mem_cons_of_mem _ hd,hid⟩)
    refine hrest.trans ?_
    by_cases hid : ∃ b, c.blockId = .uuid b
    · obtain ⟨b,hid⟩ := hid
      have hne : j ≠ b := fun heq => hj ⟨c,List.mem_cons_self,heq ▸ hid⟩
      rw [reject_uuid hid (h c List.mem_cons_self),OrderedMap.get_delete,if_neg hne]
    · rw [reject_other (not_exists.mp hid)]

theorem get_named (h : Blockless conflicts) (m : Blocks) {j : Uuid} (hj : Names conflicts j) :
    (conflicts.foldl reject m).get j = none := by
  -- once deleted a block stays away
  have hgone : ∀ (cs : List ConflictInfo), Blockless cs → ∀ m : Blocks, m.get j = none →
      (cs.foldl reject m).get j = none := by
    intro cs
    induction cs with
    | nil => exact fun _ _ hm => hm
    | cons c cs ih =>
      intro hcs m hm
      refine ih (fun d hd => hcs d (List.mem_cons_of_mem _ hd)) _ ?_
      by_cases hid : ∃ b, c.blockId = .uuid b
      · obtain ⟨b,hid⟩ := hid
        rw [reject_uuid hid (hcs c List.mem_cons_self),OrderedMap.get_delete,hm,ite_self]
      · rw [reject_other (not_exists.mp hid),hm]
  induction conflicts generalizing m with
  | nil =>
    obtain ⟨c,hc,_⟩ := hj
    exact absurd hc List.not_mem_nil
  | cons c cs ih =>
    have hcs : Blockless cs := fun d hd => h d (List.mem_cons_of_mem _ hd)
    obtain ⟨d,hd,hid⟩ := hj
    rcases List.mem_cons.mp hd with rfl | hd
    · refine hgone cs hcs _ ?_
      rw [reject_uuid hid (h d List.mem_cons_self),OrderedMap.get_delete,if_pos rfl]
    · exact ih hcs _ ⟨d,hd,hid⟩

theorem rejected_spared (h : Blockless conflicts) (hspares : Spares conflicts m) :
    conflicts.foldl reject m = m := by
  induction conflicts with
  | nil => rfl
  | cons c cs ih =>
    have hone : reject m c = m := by
      by_cases hid : ∃ b, c.blockId = .uuid b
      · obtain ⟨b,hid⟩ := hid
        rw [reject_uuid hid (h c List.mem_cons_self)]
        exact OrderedMap.delete_absent (hspares b ⟨c,List.mem_cons_self,hid⟩)
      · exact reject_other (not_exists.mp hid) m
    rw [List.foldl_cons,hone]
    exact ih (fun d hd => h d (List.mem_cons_of_mem _ hd))
      (fun b ⟨d,hd,hid⟩ => hspares b ⟨d,List.mem_cons_of_mem _ hd,hid⟩)

/-- A new block goes with the first conflict that names it. -/
theorem rejected_new (h : Blockless conflicts) (hspares : Spares conflicts m)
    (hnew : m.get b = none) (hnamed : Names conflicts b) :
    conflicts.foldl reject (m.set b v) = m := by
  induction conflicts with
  | nil =>
    obtain ⟨c,hc,_⟩ := hnamed
    exact absurd hc List.not_mem_nil
  | cons c cs ih =>
    have hcs : Blockless cs := fun d hd => h d (List.mem_cons_of_mem _ hd)
    have hrest : Spares cs m := fun b ⟨d,hd,hid⟩ => hspares b ⟨d,List.mem_cons_of_mem _ hd,hid⟩
    have hothers : c.blockId ≠ .uuid b → Names cs b := by
      intro hne
      obtain ⟨d,hd,hid⟩ := hnamed
      rcases List.mem_cons.mp hd with rfl | hd
      · exact absurd hid hne
      · exact ⟨d,hd,hid⟩
    rw [List.foldl_cons]
    by_cases hid : ∃ j, c.blockId = .uuid j
    · obtain ⟨j,hid⟩ := hid
      rw [reject_uuid hid (h c List.mem_cons_self)]
      by_cases hj : j = b
      · rw [hj,OrderedMap.delete_set hnew]
        exact rejected_spared hcs hrest
      · have habsent : (m.set b v).get j = none := by
          rw [OrderedMap.get_set,if_neg hj]
          exact hspares j ⟨c,List.mem_cons_self,hid⟩
        rw [OrderedMap.delete_absent habsent]
        exact ih hcs hrest (hothers (fun hb => hj (IdField.uuid.inj (hid.symm.trans hb))))
    · rw [reject_other (not_exists.mp hid)]
      exact ih hcs hrest (hothers (not_exists.mp hid b))

/-- One block was written and then the nack came. -/
theorem rejected_set_iff (h : Blockless conflicts) :
    conflicts.foldl reject (m.set b v) = m ↔
      Spares conflicts m ∧ (m.get b = none ∧ Names conflicts b ∨ m.get b = some v) := by
  constructor
  · intro heq
    have hspares : Spares conflicts m := by
      intro j hj
      rw [← heq]
      exact get_named h _ hj
    refine ⟨hspares,?_⟩
    by_cases hnamed : Names conflicts b
    · exact Or.inl ⟨hspares b hnamed,hnamed⟩
    · have hget := get_rejected h (m.set b v) b hnamed
      rw [heq,OrderedMap.get_set,if_pos rfl] at hget
      exact Or.inr hget
  · rintro ⟨hspares,⟨hnew,hnamed⟩ | hold⟩
    · exact rejected_new h hspares hnew hnamed
    · rw [OrderedMap.set_same hold]
      exact rejected_spared h hspares

/-! ## Actions -/

inductive LocalAction where
  | insertBlock (blockId : Uuid) (type : String) (parentId afterId : Option Uuid)
      (content : Option JsonObj)
  | deleteBlock (blockId : Uuid)
  | moveBlock (blockId : Uuid) (parentId afterId : Option Uuid)
  | updateAttrs (blockId : Uuid) (attrs : JsonObj)

def LocalAction.event : LocalAction → ClientEvent
  | .insertBlock blockId type parentId afterId content =>
    .insertBlock blockId type parentId afterId content
  | .deleteBlock blockId => .deleteBlock blockId
  | .moveBlock blockId parentId afterId => .moveBlock blockId parentId afterId
  | .updateAttrs blockId attrs => .updateAttrs blockId attrs

def LocalAction.puts (s : Store) : LocalAction → Option (Uuid × Block)
  | .insertBlock blockId type parentId afterId content =>
    some (blockId,newBlock s blockId type parentId afterId content)
  | .deleteBlock _ => none
  | .moveBlock blockId parentId afterId =>
    (s.blocks.get blockId).map fun b => (blockId,movedBlock s b parentId afterId)
  | .updateAttrs blockId attrs =>
    (s.blocks.get blockId).map fun b =>
      (blockId,{ b with content := spreadAttrs b.content attrs })

/-- The nack names no block that the store had, and the action has put a block
that is new and named, or one that was there with all the same fields. -/
def TakenBack (s : Store) (a : LocalAction) (conflicts : List ConflictInfo) : Prop :=
  Spares conflicts s.blocks ∧ ∃ b v, a.puts s = some (b,v) ∧
    (s.blocks.get b = none ∧ Names conflicts b ∨ s.blocks.get b = some v)

def Restored (s t : Store) : Prop :=
  t.blocks = s.blocks ∧ t.rootOrder = s.rootOrder ∧ t.childrenMap = s.childrenMap

theorem restored_iff {s t : Store} (h : Indexed s) (clientSeq : ℕ)
    (conflicts : List ConflictInfo) :
    Restored s (t.handleNack clientSeq conflicts) ↔ conflicts.foldl reject t.blocks = s.blocks := by
  constructor
  · exact And.left
  · intro heq
    refine ⟨heq,?_,?_⟩
    · exact (congrArg (fun m => (rebuildIndex m).1) heq).trans h.1.symm
    · exact (congrArg (fun m => (rebuildIndex m).2) heq).trans h.2.symm

/-- An action that has sent an operation has put one block, or it has deleted one. -/
theorem action_blocks {s : Store} {a : LocalAction} {op : BlockOperation}
    (h : Enqueues s a.event op) :
    (∃ b v, a.puts s = some (b,v) ∧ (clientStep s a.event).blocks = s.blocks.set b v) ∨
      a.puts s = none ∧ ∃ b, (s.blocks.get b).isSome ∧
        (clientStep s a.event).blocks.get b = none := by
  cases a with
  | insertBlock blockId type parentId afterId content => exact Or.inl ⟨_,_,rfl,rfl⟩
  | deleteBlock blockId =>
    obtain ⟨existing,hget,_⟩ := sent_delete h
    refine Or.inr ⟨rfl,blockId,by rw [hget]; rfl,?_⟩
    show (s.deleteBlock blockId).blocks.get blockId = none
    rw [deleteBlock_some hget]
    simp
  | moveBlock blockId parentId afterId =>
    obtain ⟨existing,hget,_⟩ := sent_move h
    refine Or.inl ⟨blockId,_,by rw [LocalAction.puts,hget]; rfl,?_⟩
    show (s.moveBlock blockId parentId afterId).blocks = _
    rw [moveBlock_some hget]
    rfl
  | updateAttrs blockId attrs =>
    obtain ⟨existing,hget,_⟩ := sent_attrs h
    refine Or.inl ⟨blockId,_,by rw [LocalAction.puts,hget]; rfl,?_⟩
    show (s.updateAttrs blockId attrs).blocks = _
    rw [Store.updateAttrs,hget]
    rfl

/-- The nack of a failed request names the block of its operation, and then only
the insert of a new block is taken back. -/
theorem first_taken_back {s : Store} {a : LocalAction} {op : BlockOperation}
    (h : Enqueues s a.event op) (clientSeq : ℕ) (reason : String) :
    TakenBack s a (nackFirst ⟨clientSeq,[op]⟩ reason) ↔ ∃ b type parentId afterId content,
      a = .insertBlock b type parentId afterId content ∧ s.blocks.get b = none := by
  have hnames : ∀ {b : Uuid}, op.blockId = .uuid b → ∀ j,
      Names (nackFirst ⟨clientSeq,[op]⟩ reason) j ↔ j = b := by
    intro b hop j
    constructor
    · rintro ⟨c,hc,hid⟩
      rw [List.mem_singleton.mp hc] at hid
      exact IdField.uuid.inj (hid.symm.trans hop)
    · rintro rfl
      exact ⟨_,List.mem_cons_self,hop⟩
  have hpresent : ∀ {b : Uuid} {existing : Block}, op.blockId = .uuid b →
      s.blocks.get b = some existing → ¬TakenBack s a (nackFirst ⟨clientSeq,[op]⟩ reason) := by
    rintro b existing hop hget ⟨hspares,_⟩
    cases (hspares b ((hnames hop b).mpr rfl)).symm.trans hget
  have hother : (∀ b type parentId afterId content,
      a ≠ .insertBlock b type parentId afterId content) → ¬∃ b type parentId afterId content,
        a = .insertBlock b type parentId afterId content ∧ s.blocks.get b = none := by
    rintro hne ⟨b,type,parentId,afterId,content,heq,_⟩
    exact hne b type parentId afterId content heq
  cases a with
  | insertBlock b type parentId afterId content =>
    obtain rfl := sent_insert h
    constructor
    · exact fun ht => ⟨b,type,parentId,afterId,content,rfl,ht.1 b ((hnames rfl b).mpr rfl)⟩
    · rintro ⟨_,_,_,_,_,heq,hnew⟩
      cases heq
      refine ⟨fun j hj => ?_,b,_,rfl,Or.inl ⟨hnew,(hnames rfl b).mpr rfl⟩⟩
      rw [(hnames rfl j).mp hj]
      exact hnew
  | deleteBlock b =>
    obtain ⟨existing,hget,rfl⟩ := sent_delete h
    exact iff_of_false (hpresent rfl hget) (hother (by simp))
  | moveBlock b parentId afterId =>
    obtain ⟨existing,hget,rfl⟩ := sent_move h
    exact iff_of_false (hpresent rfl hget) (hother (by simp))
  | updateAttrs b attrs =>
    obtain ⟨existing,hget,rfl⟩ := sent_attrs h
    exact iff_of_false (hpresent rfl hget) (hother (by simp))

theorem nack_restores_iff (events : List ClientEvent) (a : LocalAction) (op : BlockOperation)
    (reply : ApiReply) (clientSeq : ℕ) (conflicts : List ConflictInfo)
    (hsent : Enqueues (clientRun events) a.event op)
    (hnack : handleOps ⟨(clientRun events).clientSeqCounter,[op]⟩ reply = .nack clientSeq conflicts)
    (hblockless : Blockless conflicts) :
    Restored (clientRun events) (receive (clientStep (clientRun events) a.event)
        (handleOps ⟨(clientRun events).clientSeqCounter,[op]⟩ reply)) ↔
      TakenBack (clientRun events) a conflicts := by
  rw [hnack,receive,restored_iff (run_indexed events)]
  rcases action_blocks hsent with ⟨b,v,hputs,hblocks⟩ | ⟨hnone,b,hhad,hgone⟩
  · rw [hblocks,rejected_set_iff hblockless]
    unfold TakenBack
    rw [hputs]
    simp
  · have hkept : ¬TakenBack (clientRun events) a conflicts := by
      rintro ⟨_,_,_,hputs,_⟩
      cases hnone.symm.trans hputs
    refine iff_of_false (fun heq => ?_) hkept
    have hmissing : (conflicts.foldl reject (clientStep (clientRun events) a.event).blocks).get b =
        none := by
      by_cases hnamed : Names conflicts b
      · exact get_named hblockless _ hnamed
      · rw [get_rejected hblockless _ b hnamed,hgone]
    rw [heq] at hmissing
    rw [hmissing] at hhad
    cases hhad

def refused : LocalAction := .insertBlock 8 "paragraph" none (some 7) none

def oneBlock : List ClientEvent := [.insertBlock 7 "paragraph" none none none]

theorem refused_insert_restored :
    Restored (clientRun oneBlock) (receive (clientStep (clientRun oneBlock) refused.event)
      (handleOps ⟨2,[insertOp (newBlock (clientRun oneBlock) 8 "paragraph" none (some 7) none)
        (some 7)]⟩ (.response 500 none))) := by
  refine (nack_restores_iff oneBlock refused _ (.response 500 none) 2 _ rfl rfl ?_).mpr ?_
  · intro c hc
    rw [List.mem_singleton.mp hc]
  · refine ⟨?_,8,_,rfl,Or.inl ⟨by decide +kernel,_,List.mem_cons_self,rfl⟩⟩
    rintro b ⟨c,hc,hid⟩
    rw [List.mem_singleton.mp hc] at hid
    cases hid
    decide +kernel

/-- The block whose deletion did not reach the api is still in the document. -/
theorem lost_deletion_not_restored :
    ¬∀ (events : List ClientEvent) (a : LocalAction) (op : BlockOperation) (reply : ApiReply)
      (clientSeq : ℕ) (conflicts : List ConflictInfo), Enqueues (clientRun events) a.event op →
      handleOps ⟨(clientRun events).clientSeqCounter,[op]⟩ reply = .nack clientSeq conflicts →
      Blockless conflicts →
        Restored (clientRun events) (receive (clientStep (clientRun events) a.event)
          (handleOps ⟨(clientRun events).clientSeqCounter,[op]⟩ reply)) := by
  intro hall
  have hrestored := hall oneBlock (.deleteBlock 7) (deleteOp 7 1) .unreachable 2 _ rfl rfl
    (fun c hc => by rw [List.mem_singleton.mp hc])
  have hget := congrArg (fun m => (OrderedMap.get m 7).isSome) hrestored.1
  have hbefore : ((clientRun oneBlock).blocks.get 7).isSome = true := by decide +kernel
  have hafter : ((receive (clientStep (clientRun oneBlock) (.deleteBlock 7))
      (handleOps ⟨2,[deleteOp 7 1]⟩ .unreachable)).blocks.get 7).isSome = false := by
    decide +kernel
  cases hbefore.symm.trans (hget.symm.trans hafter)

end BlockDocs.NackRollback
