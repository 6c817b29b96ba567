import BlockDocs.ClientRun
import BlockDocs.GuardedRun

/-!
# What is sent on one connection

The open event drains the whole queue of the store. After it the flush effect
runs whenever the queue has changed, once for all changes since it ran last, and
sends the last batch that waits.
-/

set_option autoImplicit false

namespace BlockDocs.PendingFlush
open BlockDocs.Wire BlockDocs.BlockStore BlockDocs.ClientRun BlockDocs.GuardedRun

/-! ## The queue of a store -/

structure Queued (s : Store) : Prop where
  increasing : s.pendingOps.Pairwise (fun p q => p.clientSeq < q.clientSeq)
  below : ∀ p ∈ s.pendingOps, p.clientSeq < s.clientSeqCounter

theorem queued_nil {s : Store} (h : s.pendingOps = []) : Queued s := by
  constructor
  · rw [h]; exact List.Pairwise.nil
  · rw [h]; exact fun p hp => absurd hp List.not_mem_nil

theorem Queued.sublist {s t : Store} (h : Queued s) (hsub : t.pendingOps.Sublist s.pendingOps)
    (hcounter : t.clientSeqCounter = s.clientSeqCounter) : Queued t := by
  refine ⟨h.increasing.sublist hsub,fun p hp => ?_⟩
  rw [hcounter]
  exact h.below p (hsub.subset hp)

theorem Queued.enqueueOps {s : Store} (h : Queued s) (ops : List BlockOperation) :
    Queued (s.enqueueOps ops) := by
  refine ⟨?_,fun p hp => ?_⟩
  · rw [enqueueOps_pendingOps,List.pairwise_append]
    refine ⟨h.increasing,List.pairwise_singleton _ _,fun p hp q hq => ?_⟩
    rw [List.mem_singleton.mp hq]
    exact h.below p hp
  · rw [enqueueOps_pendingOps] at hp
    rcases List.mem_append.mp hp with hp | hp
    · exact Nat.lt_succ_of_lt (h.below p hp)
    · rw [List.mem_singleton.mp hp]
      exact Nat.lt_succ_self _

theorem clientStep_queued {s : Store} (h : Queued s) (e : ClientEvent) :
    Queued (clientStep s e) := by
  have hsame : ∀ {t : Store}, t.pendingOps = s.pendingOps →
      t.clientSeqCounter = s.clientSeqCounter → Queued t := by
    intro t hqueue hcounter
    exact h.sublist (hqueue ▸ List.Sublist.refl _) hcounter
  cases e with
  | loadSnapshot docId blocks lastStreamId => exact queued_nil rfl
  | resetDoc => exact queued_nil rfl
  | insertBlock blockId type parentId afterId content =>
    refine Queued.enqueueOps ?_ _
    exact hsame rfl rfl
  | deleteBlock blockId =>
    simp only [clientStep,Store.deleteBlock]
    split
    · exact h
    · refine Queued.enqueueOps ?_ _
      exact hsame rfl rfl
  | moveBlock blockId parentId afterId =>
    simp only [clientStep,Store.moveBlock]
    split
    · exact h
    · refine Queued.enqueueOps ?_ _
      exact hsame rfl rfl
  | updateAttrs blockId attrs =>
    simp only [clientStep,Store.updateAttrs]
    split
    · exact h
    · refine Queued.enqueueOps ?_ _
      exact hsame rfl rfl
  | updateContent blockId content =>
    simp only [clientStep,Store.updateContent]
    split
    · exact h
    · exact hsame rfl rfl
  | applyRemoteOps ops streamId => exact hsame rfl rfl
  | handleAck clientSeq results => exact h.sublist List.filter_sublist rfl
  | handleNack clientSeq conflicts => exact h.sublist List.filter_sublist rfl

theorem clientRun_queued (events : List ClientEvent) : Queued (clientRun events) := by
  suffices hrun : ∀ s, Queued s → Queued (events.foldl clientStep s) from
    hrun .initial (queued_nil rfl)
  induction events with
  | nil => exact fun s hs => hs
  | cons e es ih => exact fun s hs => ih _ (clientStep_queued hs e)

/-! ## The connection -/

/-- `pendingOps` has changed since the effect ran last when `changed` is set,
and `mark` is what the counter was at that time, or at the open event. -/
structure Connection where
  store : Store
  changed : Bool
  mark : ℕ
  sent : List Pending

def drainPending (s : Store) : List Pending := s.pendingOps

def flushEffect (isOpen : Bool) (pendingOps : List Pending) : List Pending :=
  if isOpen then pendingOps.getLast?.toList else []

/-- The state right after the open event. The effect may still be due. -/
def opened (s : Store) (changed : Bool) : Connection :=
  ⟨s,changed,s.clientSeqCounter,drainPending s⟩

inductive Event where
  | enqueueOps (ops : List BlockOperation)
  | handleAck (clientSeq : ℕ) (results : List OpResult)
  | handleNack (clientSeq : ℕ) (conflicts : List ConflictInfo)
  | flush

/-- The effect does not run while `pendingOps` is the array it has seen. -/
def step (w : Connection) : Event → Option Connection
  | .enqueueOps ops => some { w with store := w.store.enqueueOps ops, changed := true }
  | .handleAck clientSeq results =>
    some { w with store := w.store.handleAck clientSeq results, changed := true }
  | .handleNack clientSeq conflicts =>
    some { w with store := w.store.handleNack clientSeq conflicts, changed := true }
  | .flush =>
    if w.changed then
      some { w with
        changed := false
        mark := w.store.clientSeqCounter
        sent := w.sent++flushEffect true w.store.pendingOps }
    else none

/-- In the order of the sequence numbers, none twice, and once the effect has run
after the last change each batch that still waits exactly once. -/
structure SentOnce (w : Connection) : Prop where
  ordered : w.sent.Pairwise (fun p q => p.clientSeq < q.clientSeq)
  once : w.changed = false → ∀ p ∈ w.store.pendingOps,
    w.sent.filter (fun q => q.clientSeq = p.clientSeq) = [p]

def Connection.fresh (w : Connection) : List Pending :=
  w.store.pendingOps.filter (fun p => w.mark ≤ p.clientSeq)

/-- When the effect runs and something waits, one batch of it was enqueued since. -/
def Lone (w : Connection) : Event → Prop
  | .flush => w.store.pendingOps ≠ [] → w.fresh.length = 1
  | _ => True

/-! ## What holds in every run -/

/-- Nothing that was enqueued since the effect ran last has been sent. -/
structure Bounds (w : Connection) : Prop where
  queued : Queued w.store
  mark_le : w.mark ≤ w.store.clientSeqCounter
  sent_lt : ∀ q ∈ w.sent, q.clientSeq < w.mark

theorem opened_bounds {s : Store} (h : Queued s) (changed : Bool) : Bounds (opened s changed) :=
  ⟨h,le_refl _,h.below⟩

theorem flushEffect_open (pendingOps : List Pending) :
    flushEffect true pendingOps = pendingOps.getLast?.toList := rfl

theorem flushed_mem {pendingOps : List Pending} {p : Pending}
    (h : p ∈ flushEffect true pendingOps) : p ∈ pendingOps := by
  rw [flushEffect_open,Option.mem_toList] at h
  exact List.mem_of_getLast? h

theorem flush_some {w t : Connection} (h : step w .flush = some t) : t = { w with
    changed := false
    mark := w.store.clientSeqCounter
    sent := w.sent++flushEffect true w.store.pendingOps } :=
  (Option.some.inj (Option.ite_none_right_eq_some.mp h).2).symm

theorem step_bounds {w t : Connection} {e : Event} (h : Bounds w) (ht : step w e = some t) :
    Bounds t := by
  cases e with
  | enqueueOps ops =>
    obtain rfl := Option.some.inj ht
    exact ⟨h.queued.enqueueOps ops,Nat.le_succ_of_le h.mark_le,h.sent_lt⟩
  | handleAck clientSeq results =>
    obtain rfl := Option.some.inj ht
    exact ⟨h.queued.sublist List.filter_sublist rfl,h.mark_le,h.sent_lt⟩
  | handleNack clientSeq conflicts =>
    obtain rfl := Option.some.inj ht
    exact ⟨h.queued.sublist List.filter_sublist rfl,h.mark_le,h.sent_lt⟩
  | flush =>
    obtain rfl := flush_some ht
    refine ⟨h.queued,le_refl _,fun q hq => ?_⟩
    rcases List.mem_append.mp hq with hq | hq
    · exact lt_of_lt_of_le (h.sent_lt q hq) h.mark_le
    · exact h.queued.below q (flushed_mem hq)

/-! ## When the effect runs -/

/-- A batch is the only one with its number in the list. -/
theorem filter_seq_of_mem {l : List Pending}
    (h : l.Pairwise (fun p q => p.clientSeq < q.clientSeq)) {p : Pending} (hp : p ∈ l) :
    l.filter (fun q => q.clientSeq = p.clientSeq) = [p] := by
  induction l with
  | nil => exact absurd hp List.not_mem_nil
  | cons x l ih =>
    obtain ⟨hx,hl⟩ := List.pairwise_cons.mp h
    rcases List.mem_cons.mp hp with rfl | hp
    · have hrest : l.filter (fun q => q.clientSeq = p.clientSeq) = [] := by
        rw [List.filter_eq_nil_iff]
        intro q hq heq
        have hlt := hx q hq
        have heq' := of_decide_eq_true heq
        omega
      rw [List.filter_cons_of_pos (by simp),hrest]
    · have hlt := hx p hp
      rw [List.filter_cons_of_neg (by simpa using Nat.ne_of_lt hlt)]
      exact ih hl hp

def CaughtUp (w : Connection) : Prop := ∀ p ∈ w.store.pendingOps, p.clientSeq < w.mark → p ∈ w.sent

theorem mem_of_once {l : List Pending} {p : Pending}
    (h : l.filter (fun q => q.clientSeq = p.clientSeq) = [p]) : p ∈ l := by
  have hp : p ∈ l.filter (fun q => q.clientSeq = p.clientSeq) := by
    rw [h]; exact List.mem_singleton_self p
  exact (List.mem_filter.mp hp).1

variable {w : Connection}

theorem fresh_mem {p : Pending} : p ∈ w.fresh ↔ p ∈ w.store.pendingOps ∧ w.mark ≤ p.clientSeq := by
  rw [Connection.fresh,List.mem_filter,decide_eq_true_eq]

/-- The last batch that waits is the one fresh batch. -/
theorem fresh_eq_last (h : Bounds w) {last : Pending}
    (hlast : w.store.pendingOps.getLast? = some last) (hlone : w.fresh.length = 1) :
    w.fresh = [last] := by
  obtain ⟨p,hp⟩ := List.length_eq_one_iff.mp hlone
  have hpfresh := fresh_mem.mp (hp ▸ List.mem_singleton_self p)
  have hmax : p.clientSeq ≤ last.clientSeq := by
    obtain ⟨init,hinit⟩ := List.getLast?_eq_some_iff.mp hlast
    have hincreasing := h.queued.increasing
    rw [hinit] at hincreasing hpfresh
    rcases List.mem_append.mp hpfresh.1 with hmem | hmem
    · exact le_of_lt ((List.pairwise_append.mp hincreasing).2.2 p hmem last
        (List.mem_singleton_self last))
    · rw [List.mem_singleton.mp hmem]
  have hmem : last ∈ w.fresh :=
    fresh_mem.mpr ⟨List.mem_of_getLast? hlast,le_trans hpfresh.2 hmax⟩
  rw [hp] at hmem ⊢
  rw [List.mem_singleton.mp hmem]

theorem flush_sentOnce_iff (h : Bounds w) (hsound : SentOnce w) (hup : CaughtUp w) {t : Connection}
    (ht : step w .flush = some t) : SentOnce t ↔ Lone w .flush := by
  obtain rfl := flush_some ht
  cases hlast : w.store.pendingOps.getLast? with
  | none =>
    have hnil := List.getLast?_eq_none_iff.mp hlast
    constructor
    · exact fun _ hne => absurd hnil hne
    · intro _
      refine ⟨?_,fun _ p hp => ?_⟩
      · simpa [flushEffect_open,hlast] using hsound.ordered
      · rw [hnil] at hp
        exact absurd hp List.not_mem_nil
  | some last =>
    have hmem := List.mem_of_getLast? hlast
    have hsent : w.sent++flushEffect true w.store.pendingOps = w.sent++[last] := by
      rw [flushEffect_open,hlast]; rfl
    constructor
    · intro hnext _
      have hordered : (w.sent++[last]).Pairwise (fun p q => p.clientSeq < q.clientSeq) :=
        hsent ▸ hnext.ordered
      have hbefore := (List.pairwise_append.mp hordered).2.2
      have hnew : w.mark ≤ last.clientSeq := by
        by_contra hold
        have hdone := hup last hmem (Nat.lt_of_not_le hold)
        exact lt_irrefl _ (hbefore last hdone last (List.mem_singleton_self last))
      -- a fresh batch is not among those sent before, so it is the one just sent
      have hall : ∀ p ∈ w.fresh, p = last := by
        intro p hp
        obtain ⟨hwaits,hmark⟩ := fresh_mem.mp hp
        have hp' : p ∈ w.sent++[last] := hsent ▸ mem_of_once (hnext.once rfl p hwaits)
        rcases List.mem_append.mp hp' with hp' | hp'
        · exact absurd (h.sent_lt p hp') (not_lt_of_ge hmark)
        · exact List.mem_singleton.mp hp'
      have hnodup : w.fresh.Nodup := by
        refine List.Pairwise.imp ?_ (h.queued.increasing.filter _)
        rintro p q hlt rfl
        exact lt_irrefl _ hlt
      have hperm : w.fresh.Perm [last] := by
        rw [List.perm_ext_iff_of_nodup hnodup (List.nodup_singleton last)]
        intro p
        rw [List.mem_singleton]
        exact ⟨hall p,fun hp => hp ▸ fresh_mem.mpr ⟨hmem,hnew⟩⟩
      exact hperm.length_eq
    · intro hlone
      have hfresh := fresh_eq_last h hlast (hlone (List.ne_nil_of_mem hmem))
      have hmark : w.mark ≤ last.clientSeq :=
        (fresh_mem.mp (hfresh ▸ List.mem_singleton_self last)).2
      have hordered : (w.sent++[last]).Pairwise (fun p q => p.clientSeq < q.clientSeq) := by
        rw [List.pairwise_append]
        refine ⟨hsound.ordered,List.pairwise_singleton _ _,fun p hp q hq => ?_⟩
        rw [List.mem_singleton.mp hq]
        exact lt_of_lt_of_le (h.sent_lt p hp) hmark
      refine ⟨hsent ▸ hordered,fun _ p hp => ?_⟩
      show (w.sent++flushEffect true w.store.pendingOps).filter _ = [p]
      rw [hsent]
      apply filter_seq_of_mem hordered
      by_cases hold : p.clientSeq < w.mark
      · exact List.mem_append_left _ (hup p hp hold)
      · have hp' : p ∈ w.fresh := fresh_mem.mpr ⟨hp,Nat.le_of_not_lt hold⟩
        exact List.mem_append_right _ (hfresh ▸ hp')

/-! ## Runs -/

structure Tracked (w : Connection) : Prop where
  bounds : Bounds w
  caughtUp : CaughtUp w

theorem opened_caughtUp (s : Store) (changed : Bool) : CaughtUp (opened s changed) :=
  fun _ hp _ => hp

theorem opened_sentOnce {s : Store} (h : Queued s) (changed : Bool) :
    SentOnce (opened s changed) :=
  ⟨h.increasing,fun _ _ hp => filter_seq_of_mem h.increasing hp⟩

theorem step_sentOnce_iff {e : Event} (h : Tracked w) (hsound : SentOnce w) {t : Connection}
    (ht : step w e = some t) : SentOnce t ↔ Lone w e := by
  cases e with
  | enqueueOps ops =>
    obtain rfl := Option.some.inj ht
    exact ⟨fun _ => trivial,fun _ => ⟨hsound.ordered,fun hchanged => by cases hchanged⟩⟩
  | handleAck clientSeq results =>
    obtain rfl := Option.some.inj ht
    exact ⟨fun _ => trivial,fun _ => ⟨hsound.ordered,fun hchanged => by cases hchanged⟩⟩
  | handleNack clientSeq conflicts =>
    obtain rfl := Option.some.inj ht
    exact ⟨fun _ => trivial,fun _ => ⟨hsound.ordered,fun hchanged => by cases hchanged⟩⟩
  | flush => exact flush_sentOnce_iff h.bounds hsound h.caughtUp ht

theorem step_tracked {e : Event} {t : Connection} (h : Tracked w) (ht : step w e = some t)
    (hsound : SentOnce t) : Tracked t := by
  refine ⟨step_bounds h.bounds ht,?_⟩
  cases e with
  | enqueueOps ops =>
    obtain rfl := Option.some.inj ht
    intro p hp hmark
    rcases List.mem_append.mp hp with hp | hp
    · exact h.caughtUp p hp hmark
    · rw [List.mem_singleton.mp hp] at hmark
      exact absurd hmark (not_lt_of_ge h.bounds.mark_le)
  | handleAck clientSeq results =>
    obtain rfl := Option.some.inj ht
    exact fun p hp hmark => h.caughtUp p (List.mem_filter.mp hp).1 hmark
  | handleNack clientSeq conflicts =>
    obtain rfl := Option.some.inj ht
    exact fun p hp hmark => h.caughtUp p (List.mem_filter.mp hp).1 hmark
  | flush =>
    obtain rfl := flush_some ht
    exact fun p hp _ => mem_of_once (hsound.once rfl p hp)

/-- Whatever was done before the open event, and whether or not the effect is
still due then. -/
theorem sent_once_iff_lone (history : List ClientEvent) (changed : Bool) (events : List Event) :
    Throughout step SentOnce (opened (clientRun history) changed) events ↔
      Along step Lone (opened (clientRun history) changed) events := by
  have hqueued := clientRun_queued history
  have htracked : Tracked (opened (clientRun history) changed) :=
    ⟨opened_bounds hqueued changed,opened_caughtUp _ changed⟩
  exact throughout_iff_along_kept (fun _ _ _ hw ht hsound => step_tracked hw ht hsound)
    (fun _ _ _ hw hsound ht => step_sentOnce_iff hw hsound ht) htracked
    (opened_sentOnce hqueued changed)

/-! ## Two enqueues before one run of the effect, and an answer between two runs -/

def first : BlockOperation := insertUnder 1 none

def second : BlockOperation := insertUnder 2 none

/-- A paste of two blocks: the first is not sent. -/
def paste : List Event := [.enqueueOps [first],.enqueueOps [second],.flush]

/-- The answer to the first batch makes the effect send the second one again. -/
def answered : List Event :=
  [.enqueueOps [first],.flush,.enqueueOps [second],.flush,.handleAck 1 [],.flush]

theorem paste_skips_and_ack_repeats :
    (∃ w, exec step (opened (clientRun []) false) paste = some w ∧ w.changed = false ∧
      w.store.pendingOps.map Pending.clientSeq = [1,2] ∧ w.sent.map Pending.clientSeq = [2]) ∧
    (∃ w, exec step (opened (clientRun []) false) answered = some w ∧
      w.store.pendingOps.map Pending.clientSeq = [2] ∧
      w.sent.map Pending.clientSeq = [1,2,2]) ∧
    ¬Throughout step SentOnce (opened (clientRun []) false) paste ∧
    ¬Throughout step SentOnce (opened (clientRun []) false) answered := by
  refine ⟨⟨_,rfl,rfl,rfl,rfl⟩,⟨_,rfl,rfl,rfl⟩,fun h => ?_,fun h => ?_⟩
  · have hlast := throughout_iff_prefixes.mp h paste (List.prefix_refl _) _ rfl
    have hmem := mem_of_once (hlast.once rfl ⟨1,[first]⟩ (List.mem_cons_self))
    exact absurd (congrArg Pending.clientSeq (List.mem_singleton.mp hmem)) (by decide)
  · have hlast := throughout_iff_prefixes.mp h answered (List.prefix_refl _) _ rfl
    have htail := (List.pairwise_cons.mp hlast.ordered).2
    exact lt_irrefl 2 ((List.pairwise_cons.mp htail).1 ⟨2,[second]⟩ (List.mem_singleton_self _))

end BlockDocs.PendingFlush
