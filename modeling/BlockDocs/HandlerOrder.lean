import BlockDocs.GuardedRun
import BlockDocs.PostOperations
import BlockDocs.WsServer

/-!
# Handlers of one connection

Each frame of a connection has a handler of its own. Deltas go to the stream on
one Redis connection, in the order of their frames; ops frames go through the
api, which commits and then appends, each request at its own pace.
-/

set_option autoImplicit false

namespace BlockDocs.HandlerOrder
open BlockDocs.Wire BlockDocs.DocBlocks BlockDocs.ApplyOps BlockDocs.PostOperations
open BlockDocs.DeltaPipeline BlockDocs.Protocol BlockDocs.WsServer BlockDocs.GuardedRun

/-- A request has reached the api or not; after the commit its operations are
still to be appended. -/
inductive Stage where
  | forwarded (ops : List BlockOperation)
  | committed (wireOps : List WireOp)

structure Request where
  frame : ℕ
  stage : Stage

/-- Frames are numbered as they are received. `xadds` are the commands issued
on the Redis connection, `stream` the entries that the frames caused, `applied`
the ops frames in the order of their commits. -/
structure World where
  db : Database
  received : ℕ := 0
  requests : List Request := []
  xadds : List (ℕ × ClientCrdtMessage) := []
  stream : List (ℕ × Body) := []
  applied : List ℕ := []

/-- `others` is what the other connections do to the database. -/
inductive Action where
  | receive (raw : Option Json)
  | xadd (ok : Bool)
  | commit (i : ℕ)
  | append (i : ℕ) (ok : Bool)
  | others (db : Database)

variable (docId : DocId) (userId : UserId) (read : ClientOpsMessage → List BlockOperation)

def handleCrdt (w : World) (frame : ℕ) (msg : ClientCrdtMessage) : World :=
  if isValidBase64NonEmpty msg.delta then { w with xadds := w.xadds++[(frame,msg)] } else w

/-- The body of the request is what the api reads in it. -/
def handleOps (w : World) (frame : ℕ) (msg : ClientOpsMessage) : World :=
  { w with requests := w.requests++[⟨frame,.forwarded (read msg)⟩] }

def onMessage (w : World) (raw : Option Json) : World :=
  match parsed raw with
  | some (.crdt msg) => handleCrdt { w with received := w.received+1 } w.received msg
  | some (.ops msg) => handleOps read { w with received := w.received+1 } w.received msg
  | _ => { w with received := w.received+1 }

/-- The transaction of a request: without an applied operation there is no entry. -/
def World.commit (w : World) (i frame : ℕ) (ops : List BlockOperation) : World :=
  match postOperations w.db docId userId ops with
  | none => { w with requests := w.requests.eraseIdx i }
  | some posted =>
    if posted.wireOps.isEmpty then
      { w with db := posted.database, requests := w.requests.eraseIdx i }
    else { w with
      db := posted.database
      requests := w.requests.set i ⟨frame,.committed posted.wireOps⟩
      applied := w.applied++[frame] }

def step (w : World) : Action → Option World
  | .receive raw => some (onMessage read w raw)
  | .xadd ok =>
    match w.xadds with
    | [] => none
    | (frame,msg)::rest => some { w with
        xadds := rest
        stream := if ok then w.stream++[(frame,.crdt msg)] else w.stream }
  | .commit i =>
    match w.requests[i]? with
    | some ⟨frame,.forwarded ops⟩ => some (w.commit docId userId i frame ops)
    | _ => none
  | .append i ok =>
    match w.requests[i]? with
    | some ⟨frame,.committed wireOps⟩ => some { w with
        requests := w.requests.eraseIdx i
        stream := if ok then w.stream++[(frame,.ops wireOps)] else w.stream }
    | _ => none
  | .others db => some { w with db := db }

def frames (l : List (ℕ × Body)) : List ℕ := l.map Prod.fst

def queued (w : World) : List ℕ := w.xadds.map Prod.fst

def Ordered (w : World) : Prop :=
  (frames w.stream).Pairwise (· < ·) ∧ w.applied.Pairwise (· < ·)

/-! ## Frames that overlap -/

def Effective (ops : List BlockOperation) : Prop :=
  ∃ db posted, postOperations db docId userId ops = some posted ∧ posted.wireOps ≠ []

def Alive (r : Request) : Prop := ∀ ops, r.stage = .forwarded ops → Effective docId userId ops

def Overlaps (w : World) (raw : Option Json) : Prop :=
  match parsed raw with
  | some (.crdt msg) => isValidBase64NonEmpty msg.delta = true ∧
      ∃ r ∈ w.requests, Alive docId userId r
  | some (.ops msg) => Effective docId userId (read msg) ∧
      ((∃ r ∈ w.requests, Alive docId userId r) ∨ w.xadds ≠ [])
  | _ => False

def Serial (w : World) : Action → Prop
  | .receive raw => ¬ Overlaps docId userId read w raw
  | _ => True

/-! ## One effect at a time -/

/-- At most one request is alive; its effect is the newest one, and no delta waits. -/
structure InOrder (w : World) : Prop where
  stream : (frames w.stream++queued w).Pairwise (· < ·)
  applied : w.applied.Pairwise (· < ·)
  below : ∀ n ∈ frames w.stream++queued w++w.applied, n < w.received
  sent : ∀ r ∈ w.requests, r.frame < w.received
  alone : (w.requests.map (Alive docId userId)).Pairwise (fun p q => ¬ (p ∧ q))
  idle : ∀ r ∈ w.requests, Alive docId userId r → w.xadds = []
  newest : ∀ r ∈ w.requests, Alive docId userId r → ∀ n ∈ frames w.stream, n < r.frame
  uncommitted : ∀ r ∈ w.requests, Alive docId userId r → ∀ ops, r.stage = .forwarded ops →
    ∀ n ∈ w.applied, n < r.frame

variable {docId userId read} {w next : World}

theorem ordered_of_inOrder (h : InOrder docId userId w) : Ordered w :=
  ⟨(List.pairwise_append.mp h.stream).1,h.applied⟩

theorem pairwise_concat {l : List ℕ} {n : ℕ} (h : l.Pairwise (· < ·)) (hn : ∀ m ∈ l, m < n) :
    (l++[n]).Pairwise (· < ·) :=
  List.pairwise_append.mpr ⟨h,List.pairwise_singleton _ _,fun m hm _ hx =>
    List.mem_singleton.mp hx ▸ hn m hm⟩

theorem frames_append (l : List (ℕ × Body)) (n : ℕ) (b : Body) :
    frames (l++[(n,b)]) = frames l++[n] := by
  simp [frames]

theorem inOrder_unheard (h : InOrder docId userId w) :
    InOrder docId userId { w with received := w.received+1 } where
  stream := h.stream
  applied := h.applied
  below := fun n hn => (h.below n hn).trans (Nat.lt_succ_self _)
  sent := fun r hr => (h.sent r hr).trans (Nat.lt_succ_self _)
  alone := h.alone
  idle := h.idle
  newest := h.newest
  uncommitted := h.uncommitted

theorem inOrder_crdt (h : InOrder docId userId w)
    (hdead : ∀ r ∈ w.requests, ¬ Alive docId userId r) (msg : ClientCrdtMessage) :
    InOrder docId userId
      { w with received := w.received+1, xadds := w.xadds++[(w.received,msg)] } where
  stream := by
    simp only [queued,List.map_append,List.map_cons,List.map_nil]
    rw [← List.append_assoc]
    exact pairwise_concat h.stream (fun m hm => h.below m (List.mem_append_left _ hm))
  applied := h.applied
  below := by
    intro n hn
    simp only [queued,List.map_append,List.map_cons,List.map_nil,List.mem_append,
      List.mem_singleton] at hn
    have hold := h.below n
    simp only [queued,List.mem_append] at hold
    rcases hn with (hn | hn | hn) | hn
    · exact (hold (Or.inl (Or.inl hn))).trans (Nat.lt_succ_self _)
    · exact (hold (Or.inl (Or.inr hn))).trans (Nat.lt_succ_self _)
    · exact hn ▸ Nat.lt_succ_self _
    · exact (hold (Or.inr hn)).trans (Nat.lt_succ_self _)
  sent := fun r hr => (h.sent r hr).trans (Nat.lt_succ_self _)
  alone := h.alone
  idle := fun r hr halive => absurd halive (hdead r hr)
  newest := fun r hr halive => absurd halive (hdead r hr)
  uncommitted := fun r hr halive => absurd halive (hdead r hr)

theorem inOrder_ops (h : InOrder docId userId w) {ops : List BlockOperation}
    (hserial : Effective docId userId ops →
      (∀ r ∈ w.requests, ¬ Alive docId userId r) ∧ w.xadds = []) :
    InOrder docId userId { w with
      received := w.received+1
      requests := w.requests++[⟨w.received,.forwarded ops⟩] } where
  stream := h.stream
  applied := h.applied
  below := fun n hn => (h.below n hn).trans (Nat.lt_succ_self _)
  sent := by
    intro r hr
    rcases List.mem_append.mp hr with hr | hr
    · exact (h.sent r hr).trans (Nat.lt_succ_self _)
    · cases List.mem_singleton.mp hr
      exact Nat.lt_succ_self _
  alone := by
    rw [List.map_append]
    refine List.pairwise_append.mpr ⟨h.alone,List.pairwise_singleton _ _,fun p hp q hq hboth => ?_⟩
    obtain ⟨r,hr,rfl⟩ := List.mem_map.mp hp
    obtain ⟨x,hx,rfl⟩ := List.mem_map.mp hq
    cases List.mem_singleton.mp hx
    exact (hserial (hboth.2 ops rfl)).1 r hr hboth.1
  idle := by
    intro r hr halive
    rcases List.mem_append.mp hr with hr | hr
    · exact h.idle r hr halive
    · cases List.mem_singleton.mp hr
      exact (hserial (halive ops rfl)).2
  newest := by
    intro r hr halive n hn
    rcases List.mem_append.mp hr with hr | hr
    · exact h.newest r hr halive n hn
    · cases List.mem_singleton.mp hr
      exact h.below n (List.mem_append_left _ (List.mem_append_left _ hn))
  uncommitted := by
    intro r hr halive ops' hops n hn
    rcases List.mem_append.mp hr with hr | hr
    · exact h.uncommitted r hr halive ops' hops n hn
    · cases List.mem_singleton.mp hr
      exact h.below n (List.mem_append_right _ hn)

theorem inOrder_receive (h : InOrder docId userId w) {raw : Option Json}
    (hserial : Serial docId userId read w (.receive raw)) :
    InOrder docId userId (onMessage read w raw) := by
  unfold onMessage
  simp only [Serial,Overlaps] at hserial
  cases hraw : parsed raw with
  | none => exact inOrder_unheard h
  | some message =>
    rw [hraw] at hserial
    cases message with
    | awareness state => exact inOrder_unheard h
    | crdt msg =>
      simp only [handleCrdt]
      split
      · next hvalid =>
        exact inOrder_crdt h (fun r hr halive => hserial ⟨hvalid,r,hr,halive⟩) msg
      · exact inOrder_unheard h
    | ops msg =>
      refine inOrder_ops h (fun heffective => ⟨fun r hr halive => ?_,?_⟩)
      · exact hserial ⟨heffective,Or.inl ⟨r,hr,halive⟩⟩
      · by_contra hne
        exact hserial ⟨heffective,Or.inr hne⟩

theorem inOrder_xadd (h : InOrder docId userId w) {frame : ℕ} {msg : ClientCrdtMessage}
    {rest : List (ℕ × ClientCrdtMessage)} (hqueue : w.xadds = (frame,msg)::rest) (ok : Bool) :
    InOrder docId userId { w with
      xadds := rest
      stream := if ok then w.stream++[(frame,.crdt msg)] else w.stream } := by
  have hdead : ∀ r ∈ w.requests, ¬ Alive docId userId r := by
    intro r hr halive
    cases hqueue.symm.trans (h.idle r hr halive)
  have hsub : (frames (if ok then w.stream++[(frame,Body.crdt msg)] else w.stream)++
      rest.map Prod.fst).Sublist (frames w.stream++queued w) := by
    rw [queued,hqueue,List.map_cons]
    cases ok with
    | true =>
      rw [if_pos rfl,frames_append,List.append_assoc]
      exact List.Sublist.refl _
    | false => exact (List.sublist_cons_self _ _).append_left _
  refine ⟨h.stream.sublist hsub,h.applied,fun n hn => ?_,h.sent,h.alone,
    fun r hr halive => absurd halive (hdead r hr),fun r hr halive => absurd halive (hdead r hr),
    fun r hr halive => absurd halive (hdead r hr)⟩
  apply h.below n
  rcases List.mem_append.mp hn with hn | hn
  · exact List.mem_append_left _ (hsub.subset hn)
  · exact List.mem_append_right _ hn

/-- A request leaves no entry behind. -/
theorem inOrder_dropped (h : InOrder docId userId w) (i : ℕ) (db : Database) :
    InOrder docId userId { w with db := db, requests := w.requests.eraseIdx i } where
  stream := h.stream
  applied := h.applied
  below := h.below
  sent := fun r hr => h.sent r (List.mem_of_mem_eraseIdx hr)
  alone := h.alone.sublist ((List.eraseIdx_sublist _ _).map _)
  idle := fun r hr => h.idle r (List.mem_of_mem_eraseIdx hr)
  newest := fun r hr => h.newest r (List.mem_of_mem_eraseIdx hr)
  uncommitted := fun r hr => h.uncommitted r (List.mem_of_mem_eraseIdx hr)

/-- Next to a request that is alive all others are not. -/
theorem others_dead (h : InOrder docId userId w) {i : ℕ} {r : Request}
    (hr : w.requests[i]? = some r) (halive : Alive docId userId r) :
    ∀ x ∈ w.requests.eraseIdx i, ¬ Alive docId userId x := by
  intro x hx hxalive
  obtain ⟨j,hne,hj⟩ := List.mem_eraseIdx_iff_getElem?.mp hx
  obtain ⟨hi,rfl⟩ := List.getElem?_eq_some_iff.mp hr
  obtain ⟨hj,rfl⟩ := List.getElem?_eq_some_iff.mp hj
  have hpair := List.pairwise_iff_getElem.mp h.alone
  rcases Nat.lt_or_gt_of_ne hne with hlt | hlt
  · have hboth := hpair j i (by rwa [List.length_map]) (by rwa [List.length_map]) hlt
    simp only [List.getElem_map] at hboth
    exact hboth ⟨hxalive,halive⟩
  · have hboth := hpair i j (by rwa [List.length_map]) (by rwa [List.length_map]) hlt
    simp only [List.getElem_map] at hboth
    exact hboth ⟨halive,hxalive⟩

theorem inOrder_appended (h : InOrder docId userId w) {i frame : ℕ} {wireOps : List WireOp}
    (hr : w.requests[i]? = some ⟨frame,.committed wireOps⟩) :
    InOrder docId userId { w with
      requests := w.requests.eraseIdx i
      stream := w.stream++[(frame,.ops wireOps)] } := by
  have hmem := List.mem_of_getElem? hr
  have halive : Alive docId userId ⟨frame,.committed wireOps⟩ := fun ops hops => nomatch hops
  have hdead := others_dead h hr halive
  have hqueued : queued w = [] := by rw [queued,h.idle _ hmem halive]; rfl
  have hold := h.stream
  rw [hqueued,List.append_nil] at hold
  refine ⟨?_,h.applied,fun n hn => ?_,fun x hx => h.sent x (List.mem_of_mem_eraseIdx hx),
    h.alone.sublist ((List.eraseIdx_sublist _ _).map _),fun x hx hxalive =>
      absurd hxalive (hdead x hx),fun x hx hxalive => absurd hxalive (hdead x hx),
    fun x hx hxalive => absurd hxalive (hdead x hx)⟩
  · show (frames (w.stream++[(frame,Body.ops wireOps)])++queued w).Pairwise (· < ·)
    rw [hqueued,List.append_nil,frames_append]
    have hnewest := h.newest _ hmem halive
    exact pairwise_concat hold hnewest
  · have hn' : n ∈ frames w.stream++[frame]++queued w++w.applied := by
      rw [← frames_append w.stream frame (.ops wireOps)]
      exact hn
    simp only [hqueued,List.append_nil,List.mem_append,List.mem_singleton] at hn'
    rcases hn' with (hn | hn) | hn
    · exact h.below n (List.mem_append_left _ (List.mem_append_left _ hn))
    · exact hn ▸ h.sent _ hmem
    · exact h.below n (List.mem_append_right _ hn)

theorem mem_set_or {l : List Request} {i : ℕ} {r x y : Request} (hr : l[i]? = some r)
    (hx : x ∈ l.set i y) : x ∈ l.eraseIdx i ∨ x = y := by
  obtain ⟨j,hj⟩ := List.mem_iff_getElem?.mp hx
  by_cases hij : i = j
  · subst hij
    rw [List.getElem?_set_self (List.getElem?_eq_some_iff.mp hr).1] at hj
    exact Or.inr (Option.some.inj hj).symm
  · rw [List.getElem?_set_ne hij] at hj
    exact Or.inl (List.mem_eraseIdx_iff_getElem?.mpr ⟨j,fun h => hij h.symm,hj⟩)

/-- A request that is alive stays alive when it commits. -/
theorem alone_set {l : List Request} {i frame : ℕ} {r : Request} {wireOps : List WireOp}
    (h : (l.map (Alive docId userId)).Pairwise (fun p q => ¬ (p ∧ q))) (hr : l[i]? = some r)
    (halive : Alive docId userId r) :
    ((l.set i ⟨frame,.committed wireOps⟩).map (Alive docId userId)).Pairwise
      (fun p q => ¬ (p ∧ q)) := by
  obtain ⟨hi,hri⟩ := List.getElem?_eq_some_iff.mp hr
  have hsame : Alive docId userId ⟨frame,.committed wireOps⟩ = Alive docId userId r :=
    propext (iff_of_true (fun ops hops => nomatch hops) halive)
  have hmap : (l.set i ⟨frame,.committed wireOps⟩).map (Alive docId userId) =
      l.map (Alive docId userId) := by
    rw [List.map_set,hsame,← List.map_set,← hri,List.set_getElem_self]
  rw [hmap]
  exact h

theorem inOrder_committed (h : InOrder docId userId w) {i frame : ℕ} {ops : List BlockOperation}
    (hr : w.requests[i]? = some ⟨frame,.forwarded ops⟩) (heffective : Effective docId userId ops)
    (db : Database) (wireOps : List WireOp) : InOrder docId userId { w with
      db := db
      requests := w.requests.set i ⟨frame,.committed wireOps⟩
      applied := w.applied++[frame] } := by
  have hmem := List.mem_of_getElem? hr
  have halive : Alive docId userId ⟨frame,.forwarded ops⟩ := by
    intro ops' hops
    cases hops
    exact heffective
  have hsent := h.sent _ hmem
  have hnewest := h.newest _ hmem halive
  have hidle := h.idle _ hmem halive
  refine ⟨h.stream,pairwise_concat h.applied (h.uncommitted _ hmem halive ops rfl),
    fun n hn => ?_,fun x hx => ?_,alone_set h.alone hr halive,fun x hx hxalive => ?_,
    fun x hx hxalive => ?_,fun x hx hxalive => ?_⟩
  · rw [← List.append_assoc] at hn
    rcases List.mem_append.mp hn with hn | hn
    · exact h.below n hn
    · exact List.mem_singleton.mp hn ▸ hsent
  · rcases mem_set_or hr hx with hx | rfl
    · exact h.sent x (List.mem_of_mem_eraseIdx hx)
    · exact hsent
  · exact hidle
  · rcases mem_set_or hr hx with hx | rfl
    · exact h.newest x (List.mem_of_mem_eraseIdx hx) hxalive
    · exact hnewest
  · rcases mem_set_or hr hx with hx | rfl
    · exact absurd hxalive (others_dead h hr halive x hx)
    · exact fun ops hops => nomatch hops

theorem inOrder_step {a : Action} (h : InOrder docId userId w)
    (hs : step docId userId read w a = some next) (hserial : Serial docId userId read w a) :
    InOrder docId userId next := by
  cases a with
  | receive raw =>
    cases hs
    exact inOrder_receive h hserial
  | xadd ok =>
    simp only [step] at hs
    split at hs
    · cases hs
    · next frame msg rest hqueue =>
      cases hs
      exact inOrder_xadd h hqueue ok
  | commit i =>
    simp only [step] at hs
    split at hs
    · next frame ops hr =>
      cases hs
      unfold World.commit
      split
      · exact inOrder_dropped h i w.db
      · next posted hposted =>
        split
        · exact inOrder_dropped h i posted.database
        · next hne =>
          have heffective : Effective docId userId ops :=
            ⟨w.db,posted,hposted,fun hnil => hne (List.isEmpty_iff.mpr hnil)⟩
          exact inOrder_committed h hr heffective posted.database posted.wireOps
    · cases hs
  | append i ok =>
    simp only [step] at hs
    split at hs
    · next frame wireOps hr =>
      cases hs
      cases ok with
      | true => exact inOrder_appended h hr
      | false => exact inOrder_dropped h i w.db
    · cases hs
  | others db =>
    cases hs
    exact ⟨h.stream,h.applied,h.below,h.sent,h.alone,h.idle,h.newest,h.uncommitted⟩

theorem inOrder_start (db : Database) : InOrder docId userId { db := db } where
  stream := List.Pairwise.nil
  applied := List.Pairwise.nil
  below := nofun
  sent := nofun
  alone := List.Pairwise.nil
  idle := nofun
  newest := nofun
  uncommitted := nofun

variable (docId userId read)

/-- In every run in which no frame overlaps an earlier one, the entries and the
commits follow the frames. -/
theorem ordered_if_serial (db : Database) (actions : List Action)
    (h : Along (step docId userId read) (Serial docId userId read) { db := db } actions) :
    Throughout (step docId userId read) Ordered { db := db } actions := by
  have hall : Throughout (step docId userId read) (InOrder docId userId) { db := db } actions :=
    throughout_of_along (fun _ _ _ hw hs hserial => inOrder_step hw hs hserial)
      (inOrder_start db) h
  exact throughout_mono (fun _ hw => ordered_of_inOrder hw) hall

def newBlock : ClientOpsMessage where
  clientSeq := 1
  ops := [⟨.insert_block,⟨uuidText 7,by decide +kernel⟩,[("type",.str "paragraph")],none⟩]
  ops_min := by simp

def firstDelta : ClientCrdtMessage := ⟨uuidText 7,"AQ==",by decide +kernel,by decide⟩

def paragraphs (msg : ClientOpsMessage) : List BlockOperation :=
  msg.ops.map (fun o => { op := o.op, blockId := .uuid 7, payload := { type := some "paragraph" } })

/-- A delta whose entry is there when the next frame arrives. -/
theorem ordered_if_serial_in_turn : Throughout (step 1 1 paragraphs) Ordered
    { db := .initial [1] [1] } [.receive (some (crdtJson firstDelta)),.xadd true,
      .receive (some (opsJson newBlock))] := by
  apply ordered_if_serial
  have hvalid : isValidBase64NonEmpty firstDelta.delta = true := by decide +kernel
  have hfirst : onMessage paragraphs { db := .initial [1] [1] } (some (crdtJson firstDelta)) =
      { db := .initial [1] [1], received := 1, xadds := [(0,firstDelta)] } := by
    simp [onMessage,parsed_crdt,handleCrdt,hvalid]
  intro w hw
  refine ⟨fun hover => ?_,fun t ht => ⟨trivial,fun u hu => ⟨fun hover => ?_,trivial⟩⟩⟩
  · rw [Overlaps,parsed_crdt] at hover
    obtain ⟨_,r,hr,_⟩ := hover
    cases hr
  · rw [step,hfirst] at hw
    cases hw
    cases ht
    rw [Overlaps,parsed_ops] at hover
    rcases hover.2 with ⟨r,hr,_⟩ | hne
    · cases hr
    · exact hne rfl

/-! ## The condition is exact -/

def hears : Action → Bool
  | .receive _ => true
  | _ => false

def Leads (w t : World) : Prop :=
  ∃ actions, (∀ a ∈ actions, hears a = false) ∧ exec (step docId userId read) w actions = some t

structure Bounded (w : World) : Prop where
  requests : ∀ r ∈ w.requests, r.frame < w.received
  queued : ∀ n ∈ queued w, n < w.received

variable {docId userId read}

theorem bounded_receive (h : Bounded w) (raw : Option Json) : Bounded (onMessage read w raw) := by
  have hunheard : Bounded { w with received := w.received+1 } :=
    ⟨fun r hr => (h.requests r hr).trans (Nat.lt_succ_self _),
      fun n hn => (h.queued n hn).trans (Nat.lt_succ_self _)⟩
  unfold onMessage
  split
  · unfold handleCrdt
    split
    · refine ⟨hunheard.requests,fun n hn => ?_⟩
      simp only [queued,List.map_append,List.mem_append] at hn
      rcases hn with hn | hn
      · exact hunheard.queued n hn
      · cases List.mem_singleton.mp hn
        exact Nat.lt_succ_self _
    · exact hunheard
  · refine ⟨fun r hr => ?_,hunheard.queued⟩
    rcases List.mem_append.mp hr with hr | hr
    · exact hunheard.requests r hr
    · cases List.mem_singleton.mp hr
      exact Nat.lt_succ_self _
  · exact hunheard

theorem bounded_step {a : Action} (h : Bounded w)
    (hs : step docId userId read w a = some next) : Bounded next := by
  cases a with
  | receive raw =>
    cases hs
    exact bounded_receive h raw
  | xadd ok =>
    simp only [step] at hs
    split at hs
    · cases hs
    · next frame msg rest hqueue =>
      cases hs
      refine ⟨h.requests,fun n hn => h.queued n ?_⟩
      rw [queued,hqueue]
      exact List.mem_cons_of_mem _ hn
  | commit i =>
    simp only [step] at hs
    split at hs
    · next frame ops hr =>
      cases hs
      have herase : ∀ r ∈ w.requests.eraseIdx i, r.frame < w.received :=
        fun r hr => h.requests r (List.mem_of_mem_eraseIdx hr)
      unfold World.commit
      split
      · exact ⟨herase,h.queued⟩
      · split
        · exact ⟨herase,h.queued⟩
        · refine ⟨fun r hset => ?_,h.queued⟩
          rcases mem_set_or hr hset with hold | rfl
          · exact herase r hold
          · have hsent := h.requests _ (List.mem_of_getElem? hr)
            exact hsent
    · cases hs
  | append i ok =>
    simp only [step] at hs
    split at hs
    · cases hs
      exact ⟨fun r hr => h.requests r (List.mem_of_mem_eraseIdx hr),h.queued⟩
    · cases hs
  | others db =>
    cases hs
    exact ⟨h.requests,h.queued⟩

theorem bounded_start (db : Database) : Bounded { db := db } where
  requests := nofun
  queued := nofun

theorem bounded_run {db : Database} {actions : List Action}
    (hrun : exec (step docId userId read) { db := db } actions = some w) : Bounded w :=
  exec_invariant (fun _ _ _ h hs => bounded_step h hs) (bounded_start db) hrun

theorem Leads.refl (w : World) : Leads docId userId read w w := ⟨[],nofun,rfl⟩

theorem Leads.trans {t u : World} (h : Leads docId userId read w t)
    (h' : Leads docId userId read t u) : Leads docId userId read w u := by
  obtain ⟨as,has,hrun⟩ := h
  obtain ⟨bs,hbs,hrun'⟩ := h'
  refine ⟨as++bs,fun a ha => ?_,?_⟩
  · rcases List.mem_append.mp ha with ha | ha
    · exact has a ha
    · exact hbs a ha
  · rw [exec_append,hrun]
    exact hrun'

theorem leads_step {a : Action} (ha : hears a = false)
    (hs : step docId userId read w a = some next) : Leads docId userId read w next :=
  ⟨[a],fun b hb => List.mem_singleton.mp hb ▸ ha,by rw [exec,hs]; rfl⟩

theorem commit_effective {ops : List BlockOperation} {posted : Posted} (i frame : ℕ)
    (hposted : postOperations w.db docId userId ops = some posted) (hne : posted.wireOps ≠ []) :
    w.commit docId userId i frame ops = { w with
      db := posted.database
      requests := w.requests.set i ⟨frame,.committed posted.wireOps⟩
      applied := w.applied++[frame] } := by
  simp only [World.commit,hposted,List.isEmpty_iff,if_neg hne]

/-- A request that is alive can be brought to its entry at once. -/
theorem finish_request {i : ℕ} {r : Request} (hr : w.requests[i]? = some r)
    (halive : Alive docId userId r) : ∃ t, Leads docId userId read w t ∧
      frames t.stream = frames w.stream++[r.frame] ∧ t.requests = w.requests.eraseIdx i ∧
      t.xadds = w.xadds := by
  obtain ⟨frame,stage⟩ := r
  cases stage with
  | committed wireOps =>
    have hs : step docId userId read w (.append i true) = some { w with
        requests := w.requests.eraseIdx i
        stream := w.stream++[(frame,.ops wireOps)] } := by
      simp only [step,hr,if_true]
    exact ⟨_,leads_step rfl hs,frames_append _ _ _,rfl,rfl⟩
  | forwarded ops =>
    obtain ⟨db,posted,hposted,hne⟩ := halive ops rfl
    have hother : step docId userId read w (.others db) = some { w with db := db } := rfl
    have hcommit : step docId userId read { w with db := db } (.commit i) = some { w with
        db := posted.database
        requests := w.requests.set i ⟨frame,.committed posted.wireOps⟩
        applied := w.applied++[frame] } := by
      simp only [step,hr]
      exact congrArg some (commit_effective (w := { w with db := db }) i frame hposted hne)
    have hset : (w.requests.set i ⟨frame,.committed posted.wireOps⟩)[i]? =
        some ⟨frame,.committed posted.wireOps⟩ := by
      rw [List.getElem?_set_self (List.getElem?_eq_some_iff.mp hr).1]
    have hlast : step docId userId read { w with
        db := posted.database
        requests := w.requests.set i ⟨frame,.committed posted.wireOps⟩
        applied := w.applied++[frame] } (.append i true) = some { w with
          db := posted.database
          requests := w.requests.eraseIdx i
          stream := w.stream++[(frame,.ops posted.wireOps)]
          applied := w.applied++[frame] } := by
      simp only [step,hset,if_true,List.eraseIdx_set_eq]
    exact ⟨_,(leads_step rfl hother).trans ((leads_step rfl hcommit).trans (leads_step rfl hlast)),
      frames_append _ _ _,rfl,rfl⟩

theorem finish_xadds (w : World) : ∃ t, Leads docId userId read w t ∧
    frames t.stream = frames w.stream++queued w ∧ t.requests = w.requests := by
  obtain ⟨n,hn⟩ : ∃ n, w.xadds.length = n := ⟨_,rfl⟩
  induction n generalizing w with
  | zero =>
    refine ⟨w,.refl w,?_,rfl⟩
    rw [queued,List.length_eq_zero_iff.mp hn]
    exact (List.append_nil _).symm
  | succ n ih =>
    cases hqueue : w.xadds with
    | nil =>
      rw [hqueue] at hn
      cases hn
    | cons x rest =>
      obtain ⟨frame,msg⟩ := x
      have hs : step docId userId read w (.xadd true) = some { w with
          xadds := rest
          stream := w.stream++[(frame,.crdt msg)] } := by
        simp only [step,hqueue,if_true]
      rw [hqueue] at hn
      obtain ⟨t,hleads,hstream,hrequests⟩ := ih { w with
        xadds := rest
        stream := w.stream++[(frame,.crdt msg)] } (Nat.succ.inj hn)
      refine ⟨t,(leads_step rfl hs).trans hleads,?_,hrequests⟩
      rw [hstream,frames_append,queued,queued,hqueue,List.append_assoc]
      rfl

theorem broken_of_leads {t : World} (h : Leads docId userId read w t) (ht : ¬ Ordered t) :
    ∃ actions, (∀ a ∈ actions, hears a = false) ∧
      ¬ Throughout (step docId userId read) Ordered w actions := by
  obtain ⟨actions,hquiet,hrun⟩ := h
  refine ⟨actions,hquiet,fun hall => ht ?_⟩
  exact throughout_iff_prefixes.mp hall actions (List.prefix_refl _) t hrun

theorem not_ordered {t : World} {l r : List ℕ} {m n : ℕ} (hstream : frames t.stream = l++[n]++r)
    (hm : m ∈ r) (hlt : m < n) : ¬ Ordered t := by
  intro h
  have hstreamed := h.1
  rw [hstream] at hstreamed
  have hafter := (List.pairwise_append.mp hstreamed).2.2 n
    (List.mem_append_right _ (List.mem_singleton.mpr rfl)) m hm
  omega

/-- The condition is exact: after a frame that overlaps an earlier one, the order
can be broken without any further frame. -/
theorem overlap_breaks {raw : Option Json} (hw : Bounded w)
    (h : Overlaps docId userId read w raw) :
    ∃ actions, (∀ a ∈ actions, hears a = false) ∧
      ¬ Throughout (step docId userId read) Ordered (onMessage read w raw) actions := by
  unfold Overlaps at h
  cases hraw : parsed raw with
  | none =>
    rw [hraw] at h
    exact absurd h id
  | some message =>
    rw [hraw] at h
    cases message with
    | awareness state => exact absurd h id
    | crdt msg =>
      obtain ⟨hvalid,r,hr,halive⟩ := h
      obtain ⟨i,hi⟩ := List.mem_iff_getElem?.mp hr
      have hnext : onMessage read w raw =
          { w with received := w.received+1, xadds := w.xadds++[(w.received,msg)] } := by
        simp only [onMessage,hraw,handleCrdt,hvalid,if_true]
      -- all deltas are appended, and the request comes last
      obtain ⟨t,hleads,hstream,hsame⟩ := @finish_xadds docId userId read (onMessage read w raw)
      rw [hnext] at hsame
      have hi' : t.requests[i]? = some r := by rw [hsame]; exact hi
      obtain ⟨u,hleads',hstream',_,_⟩ := finish_request hi' halive
      refine broken_of_leads (hleads.trans hleads') (not_ordered (l := frames w.stream++queued w)
        (r := [r.frame]) ?_ (List.mem_singleton.mpr rfl) (hw.requests r hr))
      rw [hstream',hstream,hnext]
      simp [queued]
    | ops msg =>
      obtain ⟨heffective,hpending⟩ := h
      have hnext : onMessage read w raw = { w with
          received := w.received+1
          requests := w.requests++[⟨w.received,.forwarded (read msg)⟩] } := by
        simp only [onMessage,hraw,handleOps]
      have hlast : (onMessage read w raw).requests[w.requests.length]? =
          some ⟨w.received,.forwarded (read msg)⟩ := by
        rw [hnext]
        simp
      have hnew : Alive docId userId ⟨w.received,.forwarded (read msg)⟩ := by
        intro ops hops
        cases hops
        exact heffective
      -- the new request overtakes
      obtain ⟨t,hleads,hstream,hsame,hxadds⟩ := @finish_request docId userId read _ _ _ hlast hnew
      rw [hnext] at hsame hxadds hstream
      rcases hpending with ⟨r,hr,halive⟩ | hne
      · obtain ⟨i,hi⟩ := List.mem_iff_getElem?.mp hr
        have hi' : t.requests[i]? = some r := by
          rw [hsame]
          simpa [List.eraseIdx_append_of_length_le] using hi
        obtain ⟨u,hleads',hstream',_,_⟩ := finish_request hi' halive
        refine broken_of_leads (hleads.trans hleads') (not_ordered (l := frames w.stream)
          (r := [r.frame]) ?_ (List.mem_singleton.mpr rfl) (hw.requests r hr))
        rw [hstream',hstream]
      · obtain ⟨x,hx⟩ := List.exists_mem_of_ne_nil _ hne
        have hmem : x.1 ∈ queued t := by
          rw [queued,hxadds]
          exact List.mem_map_of_mem hx
        obtain ⟨u,hleads',hstream',_⟩ := @finish_xadds docId userId read t
        refine broken_of_leads (hleads.trans hleads') (not_ordered (l := frames w.stream)
          (r := queued t) ?_ hmem (hw.queued x.1 (List.mem_map_of_mem hx)))
        rw [hstream',hstream]

/-! ## A delta before its insert_block -/

/-- The frames arrive in the order that the client must keep. -/
def insertThenType : List Action :=
  [.receive (some (opsJson newBlock)),.receive (some (crdtJson firstDelta)),.xadd true,.commit 0,
    .append 0 true]

theorem delta_overtakes_insert : ¬ Throughout (step 1 1 paragraphs) Ordered
    { db := .initial [1] [1] } insertThenType := by
  intro h
  have hrun : (exec (step 1 1 paragraphs) { db := .initial [1] [1] } insertThenType).any
      (fun w => frames w.stream = [1,0]) = true := by
    decide +kernel
  obtain ⟨w,hw,hstream⟩ := (Option.any_eq_true _ _).mp hrun
  have hordered := (throughout_iff_prefixes.mp h _ (List.prefix_refl _) w hw).1
  rw [of_decide_eq_true hstream] at hordered
  exact absurd hordered (by decide)

end BlockDocs.HandlerOrder
