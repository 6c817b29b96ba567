import BlockDocs.AppliedHistory
import BlockDocs.ClientRun

/-!
# Versions on a client

A client that started with the versions of the server processes the echoes of
a history in their order, and acks and its own local actions in between. The
last frame that wrote the version of a block decides what the client has.
-/

set_option autoImplicit false

namespace BlockDocs.ReplicaVersion
open BlockDocs.InsertionMap BlockDocs.Wire BlockDocs.DocBlocks BlockDocs.ApplyOps
open BlockDocs.PostOperations BlockDocs.BlockStore BlockDocs.ClientRun BlockDocs.AppliedHistory

/-! ## What one event does to one version -/

def versionOf (blocks : Blocks) (b : Uuid) : Option ℤ := (blocks.get b).map Block.version

/-- The version after the echo: an update writes one more than the version it carries. -/
def echoVersion (a : AppliedOp) (b : Uuid) (old : Option ℤ) : Option ℤ :=
  if a.blockId = b then
    match a.payload with
    | .insert _ _ _ _ _ => some 1
    | .delete => none
    | .move _ _ _ => old
    | .attrs _ => old.map (fun _ => a.newVersion+1)
    | .content _ => old.map (fun _ => a.newVersion+1)
  else old

theorem versionOf_adjust (blocks : Blocks) (blockId b : Uuid) {f : Block → Block} (g : ℤ → ℤ)
    (hf : ∀ x, (f x).version = g x.version) : versionOf (adjust blocks blockId f) b =
      if blockId = b then (versionOf blocks b).map g else versionOf blocks b := by
  by_cases h : b = blockId
  · subst h
    simp [versionOf,Function.comp_def,hf]
  · simp [versionOf,h,Ne.symm h]

theorem versionOf_promote (blocks : Blocks) (blockId b : Uuid) (parentId : Option Uuid) :
    versionOf (promote blockId parentId (blocks.delete blockId)) b =
      if b = blockId then none else versionOf blocks b := by
  by_cases h : b = blockId
  · simp [versionOf,h]
  · have hkept : ∀ x : Block, (if x.parentId = some blockId then
        { x with parentId := parentId } else x).version = x.version := by
      intro x
      split <;> rfl
    simp [versionOf,h,Function.comp_def,hkept]

theorem versionOf_remote (blocks : Blocks) (a : AppliedOp) (b : Uuid) :
    versionOf (applyRemoteOp blocks (wireOp a)) b = echoVersion a b (versionOf blocks b) := by
  unfold applyRemoteOp echoVersion wireOp
  cases a.payload with
  | insert type parentId position depth content =>
    by_cases h : a.blockId = b
    · simp [versionOf,h]
    · simp [versionOf,h,Ne.symm h]
  | delete =>
    simp only [versionOf_promote,eq_comm]
  | move parentId position depth =>
    have hmoved := versionOf_adjust blocks a.blockId b id
      (fun x => (rfl : { x with parentId := parentId, position := position }.version = _))
    simpa using hmoved
  | attrs patch => exact versionOf_adjust blocks a.blockId b (fun _ => a.newVersion+1) (fun _ => rfl)
  | content content =>
    exact versionOf_adjust blocks a.blockId b (fun _ => a.newVersion+1) (fun _ => rfl)

theorem versionOf_acknowledge (blocks : Blocks) (r : OpResult) (b : Uuid) :
    versionOf (acknowledge blocks r) b = if r.blockId = b then
      (versionOf blocks b).map (fun _ => r.newVersion) else versionOf blocks b :=
  versionOf_adjust blocks r.blockId b (fun _ => r.newVersion) (fun _ => rfl)

/-- A local action writes a version only where it inserts and takes one away
only where it deletes. -/
theorem versionOf_local {s : Store} {e : ClientEvent} {op : BlockOperation}
    (h : Enqueues s e op) (b : Uuid) :
    versionOf (clientStep s e).blocks b = versionOf s.blocks b ∨
      (op.op = .insert_block ∧ op.blockId = .uuid b ∧
        versionOf (clientStep s e).blocks b = some 1) ∨
      (op.op = .delete_block ∧ op.blockId = .uuid b ∧
        versionOf (clientStep s e).blocks b = none) := by
  cases e with
  | loadSnapshot docId blocks lastStreamId =>
    exact absurd h (not_enqueues (List.nil_sublist _))
  | resetDoc => exact absurd h (not_enqueues (List.nil_sublist _))
  | insertBlock blockId type parentId afterId content =>
    have hop := sent_insert h
    subst hop
    by_cases hb : b = blockId
    · subst hb
      exact Or.inr (Or.inl ⟨rfl,rfl,by simp [clientStep,Store.insertBlock,versionOf,newBlock]⟩)
    · exact Or.inl (by simp [clientStep,Store.insertBlock,versionOf,hb])
  | deleteBlock blockId =>
    obtain ⟨existing,hget,rfl⟩ := sent_delete h
    rw [clientStep,deleteBlock_some hget,enqueueOps_blocks,reindexed_blocks,versionOf_promote]
    by_cases hb : b = blockId
    · subst hb
      exact Or.inr (Or.inr ⟨rfl,rfl,if_pos rfl⟩)
    · exact Or.inl (if_neg hb)
  | moveBlock blockId parentId afterId =>
    left
    obtain ⟨existing,hget,_⟩ := sent_move h
    rw [clientStep,moveBlock_some hget]
    by_cases hb : b = blockId
    · simp [versionOf,hb,hget,movedBlock]
    · simp [versionOf,hb]
  | updateAttrs blockId attrs =>
    left
    cases hget : s.blocks.get blockId with
    | none => simp [clientStep,Store.updateAttrs,hget]
    | some existing =>
      by_cases hb : b = blockId
      · simp [clientStep,Store.updateAttrs,hget,versionOf,hb]
      · simp [clientStep,Store.updateAttrs,hget,versionOf,hb]
  | updateContent blockId content => exact absurd h (content_unsent blockId content)
  | applyRemoteOps ops streamId => exact absurd h (not_enqueues (List.Sublist.refl _))
  | handleAck clientSeq results => exact absurd h (not_enqueues List.filter_sublist)
  | handleNack clientSeq conflicts => exact absurd h (not_enqueues List.filter_sublist)

/-! ## Deliveries -/

/-- What happens to the client: it performs one of its operations, it is sent
the ack of one of them, or a frame with the next operations arrives. -/
inductive Delivery where
  | act (i : ℕ) (e : ClientEvent)
  | ack (i : ℕ) (clientSeq : ℕ)
  | frame (count : ℕ) (streamId : Option StreamId)

structure Replica where
  store : Store
  echoed : ℕ

/-- An operation is performed before its echo; frames keep the order of the history. -/
inductive Delivered (sent : List Sent) (applied : List AppliedOp) (x : Replica) :
    Delivery → Replica → Prop where
  | act {i : ℕ} {s : Sent} {e : ClientEvent} (hs : sent[i]? = some s) (hmine : s.mine = true)
      (hlate : x.echoed ≤ i) (hop : Enqueues x.store e s.op) :
      Delivered sent applied x (.act i e) ⟨clientStep x.store e,x.echoed⟩
  | ack {i : ℕ} {s : Sent} {a : AppliedOp} {clientSeq : ℕ} (hs : sent[i]? = some s)
      (hmine : s.mine = true) (ha : applied[i]? = some a) :
      Delivered sent applied x (.ack i clientSeq)
        ⟨x.store.handleAck clientSeq [opResult (.applied a)],x.echoed⟩
  | frame {count : ℕ} {streamId : Option StreamId} (hcount : x.echoed+count ≤ applied.length) :
      Delivered sent applied x (.frame count streamId)
        ⟨x.store.applyRemoteOps (((applied.drop x.echoed).take count).map wireOp) streamId,
          x.echoed+count⟩

inductive DeliveredAll (sent : List Sent) (applied : List AppliedOp) :
    Replica → List Delivery → Replica → Prop where
  | nil (x : Replica) : DeliveredAll sent applied x [] x
  | cons {x y z : Replica} {d : Delivery} {ds : List Delivery}
      (hone : Delivered sent applied x d y) (hrest : DeliveredAll sent applied y ds z) :
      DeliveredAll sent applied x (d::ds) z

inductive Source where
  | snapshot
  | echo (i : ℕ)
  | ack (i : ℕ)
  deriving DecidableEq

def setsVersion (a : AppliedOp) (b : Uuid) : Bool :=
  a.blockId = b && match a.payload with
    | .delete => false
    | .move _ _ _ => false
    | _ => true

def echoSource (applied : List AppliedOp) (b : Uuid) (src : Source) (i : ℕ) : Source :=
  match applied[i]? with
  | some a => if setsVersion a b then .echo i else src
  | none => src

def ackSource (applied : List AppliedOp) (b : Uuid) (src : Source) (i : ℕ) : Source :=
  match applied[i]? with
  | some a => if a.blockId = b then .ack i else src
  | none => src

def nextSource (applied : List AppliedOp) (b : Uuid) (p : ℕ × Source) : Delivery → ℕ × Source
  | .act _ _ => p
  | .ack i _ => (p.1,ackSource applied b p.2 i)
  | .frame count _ => (p.1+count,(List.range' p.1 count).foldl (echoSource applied b) p.2)

def sourceOf (applied : List AppliedOp) (b : Uuid) (ds : List Delivery) : Source :=
  (ds.foldl (nextSource applied b) (0,.snapshot)).2

def sourceVersion (start : Option ℤ) (applied : List AppliedOp) : Source → Option ℤ
  | .snapshot => start
  | .ack i => (applied[i]?).map AppliedOp.newVersion
  | .echo i => (applied[i]?).map (fun a => match a.payload with
    | .insert _ _ _ _ _ => 1
    | _ => a.newVersion+1)

/-! ## The invariant -/

variable {docId : DocId} {db last : Database} {sent : List Sent} {applied : List AppliedOp}

/-- A present block has the version of its source or waits for the echo of an
insert, and a block the client lacks is not live or waits for an echo. -/
structure Tracks (docId : DocId) (db : Database) (sent : List Sent) (applied : List AppliedOp)
    (b : Uuid) (blocks : Blocks) (k : ℕ) (src : Source) : Prop where
  version : ∀ v, versionOf blocks b = some v →
    sourceVersion (serverVersion db docId b) applied src = some v ∨
      ∃ j a, k ≤ j ∧ applied[j]? = some a ∧ inserts a b = true
  present : versionOf blocks b = none → versionAt docId db sent b k = none ∨
    ∃ j a, k ≤ j ∧ applied[j]? = some a ∧ (inserts a b = true ∨ deletes a b = true)

theorem tracks_start {store : Store}
    (hstart : ∀ b, versionOf store.blocks b = serverVersion db docId b) (b : Uuid) :
    Tracks docId db sent applied b store.blocks 0 .snapshot where
  version v hv := Or.inl ((hstart b).symm.trans hv)
  present hnone := by
    left
    have hzero : versionAt docId db sent b 0 = serverVersion db docId b := rfl
    rw [hzero,← hstart b,hnone]

theorem later_skip {P : AppliedOp → Prop} {k : ℕ} {a : AppliedOp} (ha : applied[k]? = some a)
    (hP : ¬P a) (h : ∃ j c, k ≤ j ∧ applied[j]? = some c ∧ P c) :
    ∃ j c, k+1 ≤ j ∧ applied[j]? = some c ∧ P c := by
  obtain ⟨j,c,hj,hc,hPc⟩ := h
  have hne : j ≠ k := by
    intro heq
    rw [heq,ha] at hc
    exact hP (Option.some.inj hc ▸ hPc)
  exact ⟨j,c,by omega,hc,hPc⟩

/-- Echoes that neither insert nor delete the block keep what is still to come. -/
theorem tracks_present {b : Uuid} {blocks next : Blocks} {k : ℕ} {src : Source}
    (hrun : runAll docId db sent = some (applied,last))
    (h : Tracks docId db sent applied b blocks k src) {a : AppliedOp} (ha : applied[k]? = some a)
    (hinsert : inserts a b = false) (hdelete : deletes a b = false)
    (hnext : versionOf next b = none → versionOf blocks b = none) (hnone : versionOf next b = none) :
    versionAt docId db sent b (k+1) = none ∨
      ∃ j c, k+1 ≤ j ∧ applied[j]? = some c ∧ (inserts c b = true ∨ deletes c b = true) := by
  rcases h.present (hnext hnone) with hgone | hlater
  · left
    have hstep := versionAt_step hrun ha b
    rw [VersionStep,hinsert,hdelete,hgone] at hstep
    by_cases hraise : raises a b = true
    · simp [hraise] at hstep
    · simpa [hraise] using hstep
  · right
    exact later_skip ha (by simp [hinsert,hdelete]) hlater

theorem echoSource_at {b : Uuid} {k : ℕ} {src : Source} {a : AppliedOp}
    (ha : applied[k]? = some a) :
    echoSource applied b src k = if setsVersion a b then .echo k else src := by
  rw [echoSource,ha]

/-- An echo that writes no version: of another block, or a move. -/
theorem tracks_unwritten (hrun : runAll docId db sent = some (applied,last)) {b : Uuid}
    {blocks : Blocks} {k : ℕ} {src : Source} (h : Tracks docId db sent applied b blocks k src)
    {a : AppliedOp} (ha : applied[k]? = some a) (hinsert : inserts a b = false)
    (hdelete : deletes a b = false) (hset : setsVersion a b = false)
    (hecho : echoVersion a b (versionOf blocks b) = versionOf blocks b) :
    Tracks docId db sent applied b (applyRemoteOp blocks (wireOp a)) (k+1)
      (echoSource applied b src k) := by
  have hold := (versionOf_remote blocks a b).trans hecho
  rw [echoSource_at ha,hset]
  refine ⟨fun v hv => ?_,tracks_present hrun h ha hinsert hdelete (hold ▸ id)⟩
  exact (h.version v (hold ▸ hv)).imp_right (later_skip ha (by simp [hinsert]))

/-- The echo of an update writes one more than the version that it carries. -/
theorem tracks_update (hrun : runAll docId db sent = some (applied,last)) {b : Uuid}
    {blocks : Blocks} {k : ℕ} {src : Source} (h : Tracks docId db sent applied b blocks k src)
    {a : AppliedOp} (ha : applied[k]? = some a) (hinsert : inserts a b = false)
    (hdelete : deletes a b = false) (hset : setsVersion a b = true)
    (hecho : echoVersion a b (versionOf blocks b) =
      (versionOf blocks b).map (fun _ => a.newVersion+1))
    (hsource : sourceVersion (serverVersion db docId b) applied (.echo k) =
      some (a.newVersion+1)) :
    Tracks docId db sent applied b (applyRemoteOp blocks (wireOp a)) (k+1)
      (echoSource applied b src k) := by
  have hnew := (versionOf_remote blocks a b).trans hecho
  rw [echoSource_at ha,if_pos hset]
  refine ⟨fun v hv => Or.inl ?_,tracks_present hrun h ha hinsert hdelete ?_⟩
  · rw [hnew] at hv
    obtain ⟨_,_,heq⟩ := Option.map_eq_some_iff.mp hv
    rw [hsource,heq]
  · intro hnone
    rw [hnew] at hnone
    exact Option.map_eq_none_iff.mp hnone

theorem tracks_echo (hrun : runAll docId db sent = some (applied,last)) {b : Uuid}
    {blocks : Blocks} {k : ℕ} {src : Source} (h : Tracks docId db sent applied b blocks k src)
    {a : AppliedOp} (ha : applied[k]? = some a) :
    Tracks docId db sent applied b (applyRemoteOp blocks (wireOp a)) (k+1)
      (echoSource applied b src k) := by
  by_cases hid : a.blockId = b
  · cases hp : a.payload with
    | insert type parentId position depth content =>
      have hone : versionOf (applyRemoteOp blocks (wireOp a)) b = some 1 := by
        simp [versionOf_remote,echoVersion,hid,hp]
      have hset : setsVersion a b = true := by simp [setsVersion,hid,hp]
      rw [echoSource_at ha,if_pos hset]
      exact ⟨fun v hv => Or.inl (by simp [sourceVersion,ha,hp,← hv,hone]),
        fun hnone => by rw [hone] at hnone; cases hnone⟩
    | delete =>
      have hnone : versionOf (applyRemoteOp blocks (wireOp a)) b = none := by
        simp [versionOf_remote,echoVersion,hid,hp]
      have hstep := versionAt_step hrun ha b
      simp only [VersionStep,inserts,raises,deletes,hid,hp,decide_true,Bool.true_and,
        Bool.false_eq_true,if_false,if_true] at hstep
      exact ⟨fun v hv => (by rw [hnone] at hv; cases hv),fun _ => Or.inl hstep⟩
    | move parentId position depth =>
      exact tracks_unwritten hrun h ha (by simp [inserts,hp]) (by simp [deletes,hp])
        (by simp [setsVersion,hp]) (by simp [echoVersion,hp])
    | attrs patch =>
      exact tracks_update hrun h ha (by simp [inserts,hp]) (by simp [deletes,hp])
        (by simp [setsVersion,hid,hp]) (by simp [echoVersion,hid,hp])
        (by simp [sourceVersion,ha,hp])
    | content content =>
      exact tracks_update hrun h ha (by simp [inserts,hp]) (by simp [deletes,hp])
        (by simp [setsVersion,hid,hp]) (by simp [echoVersion,hid,hp])
        (by simp [sourceVersion,ha,hp])
  · exact tracks_unwritten hrun h ha (by simp [inserts,hid]) (by simp [deletes,hid])
      (by simp [setsVersion,hid]) (by simp [echoVersion,hid])

theorem tracks_frame (hrun : runAll docId db sent = some (applied,last)) {b : Uuid} (count : ℕ)
    {blocks : Blocks} {k : ℕ} {src : Source} (h : Tracks docId db sent applied b blocks k src)
    (hcount : k+count ≤ applied.length) :
    Tracks docId db sent applied b
      ((((applied.drop k).take count).map wireOp).foldl applyRemoteOp blocks) (k+count)
      ((List.range' k count).foldl (echoSource applied b) src) := by
  induction count generalizing blocks k src with
  | zero => exact h
  | succ n ih =>
    have hlt : k < applied.length := by omega
    have hone := tracks_echo hrun h (List.getElem?_eq_getElem hlt)
    have hrest := ih hone (by omega)
    rw [List.drop_eq_getElem_cons hlt,List.range'_succ]
    have hsum : k+1+n = k+(n+1) := by omega
    rw [hsum] at hrest
    exact hrest

theorem tracks_ack {b : Uuid} {blocks : Blocks} {k : ℕ} {src : Source}
    (h : Tracks docId db sent applied b blocks k src) {i : ℕ} {a : AppliedOp}
    (ha : applied[i]? = some a) :
    Tracks docId db sent applied b (acknowledge blocks (opResult (.applied a))) k
      (ackSource applied b src i) := by
  have hack := versionOf_acknowledge blocks (opResult (.applied a)) b
  have hsource : ackSource applied b src i = if a.blockId = b then .ack i else src := by
    rw [ackSource,ha]
  by_cases hid : a.blockId = b
  · have hnew : versionOf (acknowledge blocks (opResult (.applied a))) b =
        (versionOf blocks b).map (fun _ => a.newVersion) := hack.trans (if_pos hid)
    rw [hsource,if_pos hid]
    constructor
    · intro v hv
      rw [hnew] at hv
      obtain ⟨_,_,heq⟩ := Option.map_eq_some_iff.mp hv
      exact Or.inl (by simp [sourceVersion,ha,heq])
    · intro hnone
      rw [hnew] at hnone
      exact h.present (Option.map_eq_none_iff.mp hnone)
  · have hold : versionOf (acknowledge blocks (opResult (.applied a))) b = versionOf blocks b :=
      hack.trans (if_neg hid)
    rw [hsource,if_neg hid]
    exact ⟨fun v hv => h.version v (hold ▸ hv),fun hnone => h.present (hold ▸ hnone)⟩

theorem tracks_act (hrun : runAll docId db sent = some (applied,last)) {b : Uuid} {store : Store}
    {k i : ℕ} {src : Source} (h : Tracks docId db sent applied b store.blocks k src) {s : Sent}
    {e : ClientEvent} (hs : sent[i]? = some s) (hlate : k ≤ i) (hop : Enqueues store e s.op) :
    Tracks docId db sent applied b (clientStep store e).blocks k src := by
  have hi : i < applied.length := by
    rw [runAll_length hrun]
    exact (List.getElem?_eq_some_iff.mp hs).1
  have ha : applied[i]? = some applied[i] := List.getElem?_eq_getElem hi
  obtain ⟨s',before,after,hs',hok,_⟩ := runAll_at hrun ha
  cases hs.symm.trans hs'
  rcases versionOf_local hop b with hold | ⟨hkind,hid,_⟩ | ⟨hkind,hid,hnone⟩
  · exact ⟨fun v hv => h.version v (hold ▸ hv),fun hnone => h.present (hold ▸ hnone)⟩
  · have hinsert := inserts_of_op hok hkind hid
    exact ⟨fun v _ => Or.inr ⟨i,_,hlate,ha,hinsert⟩,
      fun _ => Or.inr ⟨i,_,hlate,ha,Or.inl hinsert⟩⟩
  · have hdelete := deletes_of_op hok hkind hid
    exact ⟨fun v hv => (by rw [hnone] at hv; cases hv),
      fun _ => Or.inr ⟨i,_,hlate,ha,Or.inr hdelete⟩⟩

theorem tracks_delivered (hrun : runAll docId db sent = some (applied,last)) {b : Uuid}
    {x y : Replica} {p : ℕ × Source} {d : Delivery} (hk : p.1 = x.echoed)
    (h : Tracks docId db sent applied b x.store.blocks x.echoed p.2)
    (hone : Delivered sent applied x d y) :
    (nextSource applied b p d).1 = y.echoed ∧
      Tracks docId db sent applied b y.store.blocks y.echoed (nextSource applied b p d).2 := by
  cases hone with
  | act hs _ hlate hop => exact ⟨hk,tracks_act hrun h hs hlate hop⟩
  | ack _ _ ha => exact ⟨hk,tracks_ack h ha⟩
  | @frame count streamId hcount =>
    refine ⟨congrArg (·+count) hk,?_⟩
    have hframe := tracks_frame hrun count h hcount
    rw [← hk] at hframe ⊢
    exact hframe

theorem tracks_all (hrun : runAll docId db sent = some (applied,last)) {b : Uuid}
    {x z : Replica} {p : ℕ × Source} {ds : List Delivery} (hk : p.1 = x.echoed)
    (h : Tracks docId db sent applied b x.store.blocks x.echoed p.2)
    (hall : DeliveredAll sent applied x ds z) :
    Tracks docId db sent applied b z.store.blocks z.echoed
      (ds.foldl (nextSource applied b) p).2 := by
  induction hall generalizing p with
  | nil x => exact h
  | cons hone _ ih =>
    obtain ⟨hk',h'⟩ := tracks_delivered hrun hk h hone
    exact ih hk' h'

/-! ## Where versions agree -/

def Names (applied : List AppliedOp) (b : Uuid) : Source → Prop
  | .snapshot => True
  | .echo i => ∃ a, applied[i]? = some a ∧ setsVersion a b = true
  | .ack i => ∃ a, applied[i]? = some a ∧ a.blockId = b

theorem names_echo {b : Uuid} {src : Source} (h : Names applied b src) (i : ℕ) :
    Names applied b (echoSource applied b src i) := by
  unfold echoSource
  cases ha : applied[i]? with
  | none => exact h
  | some a =>
    show Names applied b (if setsVersion a b then .echo i else src)
    split
    · next hset => exact ⟨a,ha,hset⟩
    · exact h

theorem names_echoes {b : Uuid} (is : List ℕ) {src : Source} (h : Names applied b src) :
    Names applied b (is.foldl (echoSource applied b) src) := by
  induction is generalizing src with
  | nil => exact h
  | cons i is ih => exact ih (names_echo h i)

theorem names_source {b : Uuid} (ds : List Delivery) {p : ℕ × Source}
    (h : Names applied b p.2) : Names applied b (ds.foldl (nextSource applied b) p).2 := by
  induction ds generalizing p with
  | nil => exact h
  | cons d ds ih =>
    apply ih
    cases d with
    | act i e => exact h
    | ack i clientSeq =>
      show Names applied b (ackSource applied b p.2 i)
      unfold ackSource
      cases ha : applied[i]? with
      | none => exact h
      | some a =>
        show Names applied b (if a.blockId = b then .ack i else p.2)
        split
        · next hid => exact ⟨a,ha,hid⟩
        · exact h
    | frame count streamId => exact names_echoes _ h

def since : Source → ℕ
  | .snapshot => 0
  | .echo i => i+1
  | .ack i => i+1

/-- By how much the source wrote more than the server's version. -/
def overshoot (applied : List AppliedOp) : Source → ℕ
  | .snapshot => 0
  | .ack _ => 0
  | .echo i => match (applied[i]?).map AppliedOp.payload with
    | some (.insert _ _ _ _ _) => 0
    | _ => 1

def Lasting (applied : List AppliedOp) (b : Uuid) (src : Source) : Prop :=
  ∀ a ∈ applied.drop (since src), inserts a b = false

/-- And it is raised as often after its last writer as that one was ahead. -/
def Settled (applied : List AppliedOp) (b : Uuid) (src : Source) : Prop :=
  Lasting applied b src ∧ raisesOf b (applied.drop (since src)) = overshoot applied src

instance (applied : List AppliedOp) (b : Uuid) (src : Source) :
    Decidable (Settled applied b src) :=
  inferInstanceAs (Decidable ((∀ a ∈ applied.drop (since src), inserts a b = false) ∧ _))

def Live (db : Database) (docId : DocId) (b : Uuid) : Prop := (serverVersion db docId b).isSome

def VersionsAgree (store : Store) (db : Database) (docId : DocId) : Prop :=
  ∀ b, Live db docId b → versionOf store.blocks b = serverVersion db docId b

/-- What the source wrote, in terms of the version right after its operation. -/
theorem source_version (hrun : runAll docId db sent = some (applied,last)) {b : Uuid}
    {src : Source} (hnames : Names applied b src) {u : ℤ}
    (hu : versionAt docId db sent b (since src) = some u) :
    sourceVersion (serverVersion db docId b) applied src = some (u+overshoot applied src) := by
  cases src with
  | snapshot =>
    have hzero : versionAt docId db sent b 0 = serverVersion db docId b := rfl
    have hstart : serverVersion db docId b = some u := hzero.symm.trans hu
    simp [sourceVersion,overshoot,hstart]
  | echo i =>
    obtain ⟨a,ha,hset⟩ := hnames
    have hid : a.blockId = b := by
      simp only [setsVersion,Bool.and_eq_true,decide_eq_true_eq] at hset
      exact hset.1
    have hstep := versionAt_step hrun ha b
    rw [show versionAt docId db sent b (i+1) = some u from hu] at hstep
    have hwritten := written_version hstep hid
    cases hp : a.payload with
    | insert type parentId position depth content =>
      have hone := insert_version hstep (by simp [inserts,hid,hp])
      simp [sourceVersion,overshoot,ha,hp,hone]
    | delete => simp [setsVersion,hp] at hset
    | move parentId position depth => simp [setsVersion,hp] at hset
    | attrs patch => simp [sourceVersion,overshoot,ha,hp,hwritten]
    | content content => simp [sourceVersion,overshoot,ha,hp,hwritten]
  | ack i =>
    obtain ⟨a,ha,hid⟩ := hnames
    have hstep := versionAt_step hrun ha b
    rw [show versionAt docId db sent b (i+1) = some u from hu] at hstep
    simp [sourceVersion,overshoot,ha,written_version hstep hid]

/-- Once every frame is processed, the client has the version of the source of
each live block. -/
theorem client_version (hrun : runAll docId db sent = some (applied,last)) {store : Store}
    (hstart : ∀ b, versionOf store.blocks b = serverVersion db docId b) {ds : List Delivery}
    {x : Replica} (hdelivered : DeliveredAll sent applied ⟨store,0⟩ ds x)
    (hall : x.echoed = applied.length) {b : Uuid} {v : ℤ}
    (hlive : serverVersion last docId b = some v) :
    versionAt docId db sent b applied.length = some v ∧ versionOf x.store.blocks b =
      sourceVersion (serverVersion db docId b) applied (sourceOf applied b ds) := by
  have hend : versionAt docId db sent b applied.length = some v := by
    rw [versionAt,runAll_length hrun,List.take_length,hrun]
    exact hlive
  have htracks : Tracks docId db sent applied b x.store.blocks x.echoed (sourceOf applied b ds) :=
    tracks_all hrun (rfl : ((0 : ℕ),Source.snapshot).1 = 0) (tracks_start hstart b) hdelivered
  have hnothing : ∀ j a, x.echoed ≤ j → applied[j]? = some a → False := by
    intro j a hj ha
    have hlt := (List.getElem?_eq_some_iff.mp ha).1
    omega
  refine ⟨hend,?_⟩
  cases hv : versionOf x.store.blocks b with
  | none =>
    rcases htracks.present hv with hgone | ⟨j,a,hj,ha,_⟩
    · rw [hall,hend] at hgone
      cases hgone
    · exact absurd (hnothing j a hj ha) id
  | some w =>
    rcases htracks.version w hv with hsource | ⟨j,a,hj,ha,_⟩
    · exact hsource.symm
    · exact absurd (hnothing j a hj ha) id

theorem since_le {b : Uuid} {src : Source} (h : Names applied b src) :
    since src ≤ applied.length := by
  cases src with
  | snapshot => exact Nat.zero_le _
  | echo i =>
    obtain ⟨a,ha,_⟩ := h
    exact (List.getElem?_eq_some_iff.mp ha).1
  | ack i =>
    obtain ⟨a,ha,_⟩ := h
    exact (List.getElem?_eq_some_iff.mp ha).1

/-- For a block that is not inserted after its last writer the rule is exact. -/
theorem version_agrees_iff (hrun : runAll docId db sent = some (applied,last)) {store : Store}
    (hstart : ∀ b, versionOf store.blocks b = serverVersion db docId b) {ds : List Delivery}
    {x : Replica} (hdelivered : DeliveredAll sent applied ⟨store,0⟩ ds x)
    (hall : x.echoed = applied.length) {b : Uuid} (hlive : Live last docId b)
    (hlasting : Lasting applied b (sourceOf applied b ds)) :
    versionOf x.store.blocks b = serverVersion last docId b ↔
      Settled applied b (sourceOf applied b ds) := by
  obtain ⟨v,hv⟩ := Option.isSome_iff_exists.mp hlive
  obtain ⟨hend,hclient⟩ := client_version hrun hstart hdelivered hall hv
  have hnames : Names applied b (sourceOf applied b ds) := names_source ds trivial
  obtain ⟨u,hu,hsum⟩ := version_since (fun k a ha => versionAt_step hrun ha b)
    (since_le hnames) hlasting hend
  rw [hclient,source_version hrun hnames hu,hv,hsum,Option.some.injEq]
  constructor
  · exact fun heq => ⟨hlasting,by omega⟩
  · rintro ⟨_,hraises⟩
    omega

/-- Once all frames are processed the versions agree, if after the last frame
that wrote its version each live block was not inserted again and was raised as
often as that frame was ahead. Where no block was inserted again, only then. -/
theorem versions_agree_if_settled (hrun : runAll docId db sent = some (applied,last))
    {store : Store} (hstart : ∀ b, versionOf store.blocks b = serverVersion db docId b)
    {ds : List Delivery} {x : Replica} (hdelivered : DeliveredAll sent applied ⟨store,0⟩ ds x)
    (hall : x.echoed = applied.length) :
    ((∀ b, Live last docId b → Settled applied b (sourceOf applied b ds)) →
      VersionsAgree x.store last docId) ∧
    ((∀ b, Live last docId b → Lasting applied b (sourceOf applied b ds)) →
      VersionsAgree x.store last docId →
      ∀ b, Live last docId b → Settled applied b (sourceOf applied b ds)) := by
  have hexact : ∀ b, Live last docId b → Lasting applied b (sourceOf applied b ds) →
      (versionOf x.store.blocks b = serverVersion last docId b ↔
        Settled applied b (sourceOf applied b ds)) :=
    fun b hlive hlasting => version_agrees_iff hrun hstart hdelivered hall hlive hlasting
  constructor
  · intro hsettled b hlive
    have hb := hsettled b hlive
    exact (hexact b hlive hb.1).mpr hb
  · intro hlasting hagree b hlive
    exact (hexact b hlive (hlasting b hlive)).mp (hagree b hlive)

/-- A version that agrees is not rejected as stale. -/
theorem agreed_not_stale {store : Store} {row : BlockRow}
    (hrow : last.blocks.find docId row.blockId = some row) (h : VersionsAgree store last docId) :
    checkVersion row (versionOf store.blocks row.blockId) = .ok () := by
  have hversion : serverVersion last docId row.blockId = some row.version := by
    rw [serverVersion,hrow]
    rfl
  rw [h row.blockId (by rw [Live,hversion]; rfl),hversion]
  exact checkVersion_ok.mpr (fun v hv => Option.some.inj hv)

def oneBlock : Database := settle 1 1 (.initial [1] [1]) [insertUnder 1 none]

def freshCopy : Store :=
  Store.loadSnapshot 1 ((oneBlock.blocks.rows.filter (fun r => r.docId = 1)).map rowToBlock)
    (toLex (1,0))

theorem freshCopy_versions (b : Uuid) :
    versionOf freshCopy.blocks b = serverVersion oneBlock 1 b := by
  rw [versionOf,freshCopy,snapshot_blocks (List.Perm.refl _),Option.map_map]
  rfl

def attrsChange (mine : Bool) : List Sent := [⟨mine,1,attrsOp 1 [("level",.num 2)] 1⟩]

theorem attrsChange_applied (mine : Bool) : ∃ a last, runAll 1 oneBlock (attrsChange mine) =
    some ([a],last) ∧ a.blockId = 1 ∧ a.payload = .attrs [("level",.num 2)] ∧
      a.newVersion = 2 ∧ serverVersion last 1 1 = some 2 := ⟨_,_,rfl,rfl,rfl,rfl,rfl⟩

def authorRun : List Delivery :=
  [.act 0 (.updateAttrs 1 [("level",.num 2)]),.frame 1 none,.ack 0 1]

theorem versions_agree_if_settled_author : ∃ applied last x,
    runAll 1 oneBlock (attrsChange true) = some (applied,last) ∧
      DeliveredAll (attrsChange true) applied ⟨freshCopy,0⟩ authorRun x ∧
      VersionsAgree x.store last 1 := by
  obtain ⟨a,last,hrun,hid,_⟩ := attrsChange_applied true
  have hlocal : Enqueues freshCopy (.updateAttrs 1 [("level",.num 2)])
      (attrsOp 1 [("level",.num 2)] 1) := rfl
  have hact : Delivered (attrsChange true) [a] ⟨freshCopy,0⟩
      (.act 0 (.updateAttrs 1 [("level",.num 2)])) _ := .act rfl rfl (Nat.zero_le 0) hlocal
  have hframe : Delivered (attrsChange true) [a]
      ⟨clientStep freshCopy (.updateAttrs 1 [("level",.num 2)]),0⟩ (.frame 1 none) _ :=
    .frame (le_refl 1)
  have hdelivered : DeliveredAll (attrsChange true) [a] ⟨freshCopy,0⟩ authorRun _ :=
    .cons hact (.cons hframe (.cons (.ack rfl rfl rfl) (.nil _)))
  refine ⟨[a],last,_,hrun,hdelivered,?_⟩
  apply (versions_agree_if_settled hrun freshCopy_versions hdelivered rfl).1
  intro b _
  by_cases hb : b = 1
  · have hsource : sourceOf [a] b authorRun = .ack 0 := by
      simp [sourceOf,authorRun,nextSource,ackSource,hid,hb]
    rw [hsource]
    exact ⟨fun c hc => absurd hc List.not_mem_nil,rfl⟩
  · have hne : a.blockId ≠ b := fun heq => hb (heq.symm.trans hid)
    have hsource : sourceOf [a] b authorRun = .snapshot := by
      simp [sourceOf,authorRun,nextSource,ackSource,echoSource,setsVersion,hne]
    rw [hsource]
    exact ⟨by simp [Lasting,since,inserts,hne],by simp [since,raisesOf,raises,overshoot,hne]⟩

/-- A peer ends with version 3 of a block that the server has at 2. -/
theorem peer_version_too_high : ∃ db sent applied last x,
    runAll 1 db sent = some (applied,last) ∧
      (∀ b, versionOf freshCopy.blocks b = serverVersion db 1 b) ∧
      DeliveredAll sent applied ⟨freshCopy,0⟩ [.frame 1 none] x ∧ x.echoed = applied.length ∧
      ¬VersionsAgree x.store last 1 := by
  obtain ⟨a,last,hrun,hid,hpayload,hversion,hserver⟩ := attrsChange_applied false
  have hframe : Delivered (attrsChange false) [a] ⟨freshCopy,0⟩ (.frame 1 none) _ :=
    .frame (le_refl 1)
  refine ⟨oneBlock,attrsChange false,[a],last,_,hrun,freshCopy_versions,.cons hframe (.nil _),
    rfl,?_⟩
  intro hagree
  have hlive : Live last 1 1 := by rw [Live,hserver]; rfl
  have hclient : versionOf (applyRemoteOp freshCopy.blocks (wireOp a)) 1 = some 2 :=
    (hagree 1 hlive).trans hserver
  have hstart : versionOf freshCopy.blocks 1 = some 1 := rfl
  rw [versionOf_remote,echoVersion,if_pos hid,hpayload,hstart,hversion] at hclient
  exact absurd hclient (by decide)

end BlockDocs.ReplicaVersion
