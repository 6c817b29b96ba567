import BlockDocs.GuardedRun
import BlockDocs.InsertionMap
import BlockDocs.Wire

/-!
# Discovery of streams

The worker looks for streams when it knows none or its last scan is old enough, creates the
group on those it did not know, and reads all it knows at once. If one of them has lost its
group, because the stream was deleted in between, the read fails and everything is forgotten.
-/

set_option autoImplicit false

namespace BlockDocs.StreamDiscovery
open BlockDocs.InsertionMap BlockDocs.GuardedRun BlockDocs.Wire

structure Entries where
  length : ℕ
  group : Option ℕ
  bounded : ∀ k ∈ group, k ≤ length

def Entries.empty : Entries := ⟨0,none,fun _ h => by cases h⟩

abbrev Streams := OrderedMap DocId Entries

/-- The current step of an iteration. A scan returns the keys that are there all the time and
some of those that are there for a time. -/
inductive Phase where
  | idle
  | scanning (kept seen : List DocId)
  | creating (found todo : List DocId)
  | reading

def Phase.saw (docId : DocId) : Phase → Phase
  | .scanning kept seen => .scanning kept (docId::seen)
  | phase => phase

def Phase.lost (docId : DocId) : Phase → Phase
  | .scanning kept seen => .scanning (kept.filter (· ≠ docId)) seen
  | phase => phase

structure World where
  streams : Streams := .empty
  knownStreams : List DocId := []
  lastScanAt : ℚ := 0
  phase : Phase := .idle

/-- The first four are what others do: writers, a reset of the document, and workers that
share the group. -/
inductive Action where
  | xadd (docId : DocId)
  | delete (docId : DocId)
  | created (docId : DocId)
  | shared (docId : DocId) (count : ℕ)
  | discover (now : ℚ)
  | scanned (found : List DocId)
  | create
  | readOnce
  | fail
  deriving DecidableEq

def discoveryInterval : ℚ := 5

def xreadCount : ℕ := 50

/-! ## Redis -/

def grouped (streams : Streams) (docId : DocId) : Bool :=
  (streams.get docId).any (fun e => e.group.isSome)

def Entries.added (e : Entries) : Entries :=
  ⟨e.length+1,e.group,fun k hk => (e.bounded k hk).trans (Nat.le_succ _)⟩

def xadd (streams : Streams) (docId : DocId) : Streams :=
  streams.set docId ((streams.get docId).getD .empty).added

def Entries.joined (e : Entries) : Entries :=
  ⟨e.length,some (e.group.getD 0),by
    intro k hk
    cases hk
    cases hg : e.group with
    | none => exact Nat.zero_le _
    | some k => exact e.bounded k hg⟩

/-- XGROUP CREATE with id 0 and MKSTREAM. A group that is there stays (BUSYGROUP). -/
def xgroupCreate (streams : Streams) (docId : DocId) : Streams :=
  streams.set docId ((streams.get docId).getD .empty).joined

def Entries.handOut (count : ℕ) (e : Entries) : Entries :=
  ⟨e.length,e.group.map (fun k => min e.length (k+count)),by
    intro k hk
    obtain ⟨j,_,rfl⟩ := Option.map_eq_some_iff.mp hk
    exact min_le_left _ _⟩

/-- XREADGROUP with the id `>`, which returns up to so many entries of each stream. -/
def xreadgroup (streams : Streams) (known : List DocId) (count : ℕ) : Streams :=
  streams.mapValues (fun d e => if d ∈ known then e.handOut count else e)

/-! ## The worker -/

def step (w : World) : Action → Option World
  | .xadd docId =>
    some { w with streams := xadd w.streams docId, phase := w.phase.saw docId }
  | .delete docId =>
    some { w with streams := w.streams.delete docId, phase := w.phase.lost docId }
  | .created docId =>
    some { w with streams := xgroupCreate w.streams docId, phase := w.phase.saw docId }
  | .shared docId count => some { w with streams := xreadgroup w.streams [docId] count }
  | .discover now =>
    match w.phase with
    | .idle =>
      if now-w.lastScanAt < discoveryInterval ∧ w.knownStreams ≠ [] then
        some { w with phase := .reading }
      else
        let keys := w.streams.entries.map Prod.fst
        some { w with lastScanAt := now, phase := .scanning keys keys }
    | _ => none
  | .scanned found =>
    match w.phase with
    | .scanning kept seen =>
      if (∀ d ∈ kept, d ∈ found) ∧ ∀ d ∈ found, d ∈ seen then
        some { w with phase := .creating found (found.filter (· ∉ w.knownStreams)) }
      else none
    | _ => none
  | .create =>
    match w.phase with
    | .creating found (d::todo) =>
      some { w with streams := xgroupCreate w.streams d, phase := .creating found todo }
    | .creating found [] => some { w with knownStreams := found, phase := .reading }
    | _ => none
  | .readOnce =>
    match w.phase with
    | .reading =>
      if ∀ d ∈ w.knownStreams, grouped w.streams d = true then
        some { w with
          streams := xreadgroup w.streams w.knownStreams xreadCount
          phase := .idle }
      else some { w with knownStreams := [], phase := .idle }
    | _ => none
  | .fail =>
    match w.phase with
    | .idle => none
    | _ => some { w with phase := .idle }

def World.handedOut (w : World) (docId : DocId) : ℕ :=
  ((w.streams.get docId).bind Entries.group).getD 0

/-- The iteration gets to the stream, or the next one starts with a scan. -/
def Aware (docId : DocId) (w : World) : Prop :=
  match w.phase with
  | .idle => w.knownStreams = [] ∨ docId ∈ w.knownStreams
  | .scanning kept _ => docId ∈ kept
  | .creating found _ => docId ∈ found
  | .reading => docId ∈ w.knownStreams

def Healthy (w : World) : Prop :=
  (∀ d ∈ w.knownStreams, grouped w.streams d = true) ∧
    match w.phase with
    | .creating found todo => ∀ d ∈ found, d ∈ todo ∨ grouped w.streams d = true
    | _ => True

variable {streams : Streams} {docId d : DocId} {w t v : World} {a : Action} {acts : List Action}

/-! ## Groups and entries -/

theorem grouped_set {e : Entries} (he : grouped streams d = true → e.group.isSome = true)
    (h : grouped streams docId = true) : grouped (streams.set d e) docId = true := by
  rw [grouped,OrderedMap.get_set]
  by_cases hd : docId = d
  · subst hd
    simpa using he h
  · rw [if_neg hd]
    exact h

theorem grouped_xadd (d : DocId) (h : grouped streams docId = true) :
    grouped (xadd streams d) docId = true := by
  refine grouped_set ?_ h
  intro hd
  rw [grouped] at hd
  cases hget : streams.get d with
  | none => simp [hget] at hd
  | some e => simpa [hget,Entries.added] using hd

theorem grouped_xgroupCreate (d : DocId) (h : grouped streams docId = true) :
    grouped (xgroupCreate streams d) docId = true := grouped_set (fun _ => rfl) h

theorem grouped_created (d : DocId) : grouped (xgroupCreate streams d) d = true := by
  simp [grouped,xgroupCreate,Entries.joined]

theorem grouped_xreadgroup (known : List DocId) (count : ℕ) (h : grouped streams docId = true) :
    grouped (xreadgroup streams known count) docId = true := by
  rw [grouped] at h
  rw [grouped,xreadgroup,OrderedMap.get_mapValues]
  cases hget : streams.get docId with
  | none => simp [hget] at h
  | some e =>
    rw [hget] at h
    by_cases hk : docId ∈ known
    · simpa [hk,Entries.handOut] using h
    · simpa [hk] using h

def Holds (docId : DocId) (length out : ℕ) (streams : Streams) : Prop :=
  ∃ e, streams.get docId = some e ∧ length ≤ e.length ∧ out ≤ e.group.getD 0

variable {n k : ℕ}

theorem holds_set {f : Entries → Entries}
    (hf : ∀ e, e.length ≤ (f e).length ∧ e.group.getD 0 ≤ (f e).group.getD 0)
    (h : Holds docId n k streams) :
    Holds docId n k (streams.set d (f ((streams.get d).getD .empty))) := by
  obtain ⟨e,he,hlength,hout⟩ := h
  by_cases hd : docId = d
  · subst hd
    refine ⟨f e,by simp [he],?_,?_⟩
    · exact hlength.trans (hf e).1
    · exact hout.trans (hf e).2
  · exact ⟨e,by simp [hd,he],hlength,hout⟩

theorem handOut_le (count : ℕ) (e : Entries) :
    e.group.getD 0 ≤ (e.handOut count).group.getD 0 := by
  cases hg : e.group with
  | none => exact Nat.zero_le _
  | some j =>
    have hj := e.bounded j hg
    simp only [Entries.handOut,hg,Option.map_some,Option.getD_some]
    omega

theorem holds_xreadgroup (known : List DocId) (count : ℕ) (h : Holds docId n k streams) :
    Holds docId n k (xreadgroup streams known count) := by
  obtain ⟨e,he,hlength,hout⟩ := h
  refine ⟨if docId ∈ known then e.handOut count else e,by simp [xreadgroup,he],?_⟩
  split
  · exact ⟨hlength,hout.trans (handOut_le count e)⟩
  · exact ⟨hlength,hout⟩

/-- A read of a stream with a group hands out more, as long as there is more. -/
theorem holds_read {known : List DocId} (hk : docId ∈ known) (hgroup : grouped streams docId = true)
    {r : ℕ} (h : Holds docId n (min n (xreadCount*r)) streams) :
    Holds docId n (min n (xreadCount*(r+1))) (xreadgroup streams known xreadCount) := by
  obtain ⟨e,he,hlength,hout⟩ := h
  refine ⟨e.handOut xreadCount,by simp [xreadgroup,he,hk],hlength,?_⟩
  cases hg : e.group with
  | none => simp [grouped,he,hg] at hgroup
  | some j =>
    rw [hg,Option.getD_some] at hout
    simp only [Entries.handOut,hg,Option.map_some,Option.getD_some]
    rw [Nat.mul_succ]
    omega

theorem handedOut_holds (h : Holds docId n k w.streams) : k ≤ w.handedOut docId := by
  obtain ⟨e,he,_,hout⟩ := h
  simpa [World.handedOut,he] using hout

theorem mem_keys {e : Entries} (h : streams.get docId = some e) :
    docId ∈ streams.entries.map Prod.fst := by
  by_contra hnone
  cases (lookup_eq_none.mpr hnone).symm.trans h

/-! ## One step -/

theorem saw_aware (phase : Phase) (d : DocId) {u : Streams} (known : List DocId) (last : ℚ)
    (h : Aware docId ⟨streams,known,last,phase⟩) : Aware docId ⟨u,known,last,phase.saw d⟩ := by
  cases phase <;> exact h

theorem lost_aware (phase : Phase) (hd : docId ≠ d) {u : Streams} (known : List DocId) (last : ℚ)
    (h : Aware docId ⟨streams,known,last,phase⟩) : Aware docId ⟨u,known,last,phase.lost d⟩ := by
  cases phase with
  | scanning kept seen => exact List.mem_filter.mpr ⟨h,by simpa using hd⟩
  | _ => exact h

theorem step_aware (hstream : ∃ e, w.streams.get docId = some e) (h : Aware docId w)
    (hstep : step w a = some t) (hfail : a ≠ .fail) (hkept : a ≠ .delete docId) :
    Aware docId t := by
  obtain ⟨streams,known,last,phase⟩ := w
  cases a with
  | xadd d =>
    obtain rfl := Option.some.inj hstep
    exact saw_aware phase d known last h
  | delete d =>
    obtain rfl := Option.some.inj hstep
    have hd : docId ≠ d := by
      rintro rfl
      exact hkept rfl
    exact lost_aware phase hd known last h
  | created d =>
    obtain rfl := Option.some.inj hstep
    exact saw_aware phase d known last h
  | shared d count =>
    obtain rfl := Option.some.inj hstep
    exact h
  | discover now =>
    cases phase with
    | idle =>
      rw [step] at hstep
      dsimp only at hstep
      split at hstep
      · next hrecent =>
        obtain rfl := Option.some.inj hstep
        exact h.resolve_left hrecent.2
      · obtain rfl := Option.some.inj hstep
        obtain ⟨e,he⟩ := hstream
        exact mem_keys he
    | _ => cases hstep
  | scanned found =>
    cases phase with
    | scanning kept seen =>
      obtain ⟨hfound,ht⟩ := Option.ite_none_right_eq_some.mp hstep
      obtain rfl := Option.some.inj ht
      exact hfound.1 docId h
    | _ => cases hstep
  | create =>
    cases phase with
    | creating found todo =>
      cases todo <;> obtain rfl := Option.some.inj hstep <;> exact h
    | _ => cases hstep
  | readOnce =>
    cases phase with
    | reading =>
      rw [step] at hstep
      dsimp only at hstep
      split at hstep <;> obtain rfl := Option.some.inj hstep
      · exact Or.inr h
      · exact Or.inl rfl
    | _ => cases hstep
  | fail => exact absurd rfl hfail

theorem healthy_more {u : Streams} {known : List DocId} {last : ℚ} {phase next : Phase}
    (hmore : ∀ d, grouped streams d = true → grouped u d = true)
    (hnext : ∀ found todo, next = .creating found todo → phase = .creating found todo)
    (h : Healthy ⟨streams,known,last,phase⟩) : Healthy ⟨u,known,last,next⟩ := by
  obtain ⟨hknown,hphase⟩ := h
  refine ⟨fun d hd => hmore d (hknown d hd),?_⟩
  cases next with
  | creating found todo =>
    rw [hnext found todo rfl] at hphase
    exact fun d hd => (hphase d hd).imp_right (hmore d)
  | _ => trivial

theorem saw_creating {phase : Phase} {found todo : List DocId}
    (h : phase.saw d = .creating found todo) : phase = .creating found todo := by
  cases phase <;> first | exact h | cases h

theorem step_healthy (h : Healthy w) (hstep : step w a = some t)
    (hdelete : ∀ d, a ≠ .delete d) : Healthy t := by
  obtain ⟨streams,known,last,phase⟩ := w
  cases a with
  | xadd d =>
    obtain rfl := Option.some.inj hstep
    exact healthy_more (fun _ => grouped_xadd d) (fun _ _ => saw_creating) h
  | delete d => exact absurd rfl (hdelete d)
  | created d =>
    obtain rfl := Option.some.inj hstep
    exact healthy_more (fun _ => grouped_xgroupCreate d) (fun _ _ => saw_creating) h
  | shared d count =>
    obtain rfl := Option.some.inj hstep
    exact healthy_more (fun _ => grouped_xreadgroup [d] count) (fun _ _ => id) h
  | discover now =>
    cases phase with
    | idle =>
      rw [step] at hstep
      dsimp only at hstep
      split at hstep <;> obtain rfl := Option.some.inj hstep <;> exact ⟨h.1,trivial⟩
    | _ => cases hstep
  | scanned found =>
    cases phase with
    | scanning kept seen =>
      obtain ⟨_,ht⟩ := Option.ite_none_right_eq_some.mp hstep
      obtain rfl := Option.some.inj ht
      refine ⟨h.1,fun d hd => ?_⟩
      by_cases hk : d ∈ known
      · exact Or.inr (h.1 d hk)
      · exact Or.inl (List.mem_filter.mpr ⟨hd,decide_eq_true hk⟩)
    | _ => cases hstep
  | create =>
    cases phase with
    | creating found todo =>
      cases todo with
      | nil =>
        obtain rfl := Option.some.inj hstep
        exact ⟨fun d hd => (h.2 d hd).resolve_left List.not_mem_nil,trivial⟩
      | cons x todo =>
        obtain rfl := Option.some.inj hstep
        refine ⟨fun d hd => grouped_xgroupCreate x (h.1 d hd),fun d hd => ?_⟩
        rcases h.2 d hd with hmem | hgroup
        · rcases List.mem_cons.mp hmem with rfl | hmem
          · exact Or.inr (grouped_created d)
          · exact Or.inl hmem
        · exact Or.inr (grouped_xgroupCreate x hgroup)
    | _ => cases hstep
  | readOnce =>
    cases phase with
    | reading =>
      rw [step,if_pos h.1] at hstep
      obtain rfl := Option.some.inj hstep
      exact ⟨fun d hd => grouped_xreadgroup known xreadCount (h.1 d hd),trivial⟩
    | _ => cases hstep
  | fail =>
    cases phase with
    | idle => cases hstep
    | _ =>
      obtain rfl := Option.some.inj hstep
      exact ⟨h.1,trivial⟩

theorem step_holds (h : Holds docId n k w.streams) (hstep : step w a = some t)
    (hkept : a ≠ .delete docId) : Holds docId n k t.streams := by
  have hjoined : ∀ e : Entries, e.length ≤ e.joined.length ∧
      e.group.getD 0 ≤ e.joined.group.getD 0 := fun e => ⟨le_refl _,le_refl _⟩
  obtain ⟨streams,known,last,phase⟩ := w
  cases a with
  | xadd d =>
    obtain rfl := Option.some.inj hstep
    exact holds_set (f := Entries.added) (fun e => ⟨Nat.le_succ _,le_refl _⟩) h
  | delete d =>
    obtain rfl := Option.some.inj hstep
    obtain ⟨e,he,hout⟩ := h
    have hd : docId ≠ d := by
      rintro rfl
      exact hkept rfl
    exact ⟨e,by simpa [hd] using he,hout⟩
  | created d =>
    obtain rfl := Option.some.inj hstep
    exact holds_set hjoined h
  | shared d count =>
    obtain rfl := Option.some.inj hstep
    exact holds_xreadgroup [d] count h
  | discover now =>
    cases phase with
    | idle =>
      rw [step] at hstep
      dsimp only at hstep
      split at hstep <;> obtain rfl := Option.some.inj hstep <;> exact h
    | _ => cases hstep
  | scanned found =>
    cases phase with
    | scanning kept seen =>
      obtain ⟨_,ht⟩ := Option.ite_none_right_eq_some.mp hstep
      obtain rfl := Option.some.inj ht
      exact h
    | _ => cases hstep
  | create =>
    cases phase with
    | creating found todo =>
      cases todo with
      | nil =>
        obtain rfl := Option.some.inj hstep
        exact h
      | cons x todo =>
        obtain rfl := Option.some.inj hstep
        exact holds_set hjoined h
    | _ => cases hstep
  | readOnce =>
    cases phase with
    | reading =>
      rw [step] at hstep
      dsimp only at hstep
      split at hstep <;> obtain rfl := Option.some.inj hstep
      · exact holds_xreadgroup known xreadCount h
      · exact h
    | _ => cases hstep
  | fail =>
    cases phase with
    | idle => cases hstep
    | _ =>
      obtain rfl := Option.some.inj hstep
      exact h

/-! ## Reads that fail -/

def Action.deletes : Action → Bool
  | .delete _ => true
  | _ => false

/-- All reads but one, and one more for each deletion, have handed out entries of the stream.
The exception is still to come as long as the next read may fail. -/
structure Progress (docId : DocId) (n reads deletes : ℕ) (w : World) : Prop where
  aware : Aware docId w
  served : ∃ ok, (reads ≤ ok+deletes ∨ Healthy w ∧ reads ≤ ok+deletes+1) ∧
    Holds docId n (min n (xreadCount*ok)) w.streams

variable {reads deletes : ℕ}

theorem progress_read (h : Progress docId n reads deletes w)
    (hstep : step w .readOnce = some t) : Progress docId n (reads+1) deletes t := by
  obtain ⟨haware,ok,hcount,hholds⟩ := h
  have hnext := step_aware (hholds.imp fun e he => he.1) haware hstep (by simp) (by simp)
  obtain ⟨streams,known,last,phase⟩ := w
  cases phase with
  | reading =>
    by_cases hall : ∀ d ∈ known, grouped streams d = true
    · rw [step,if_pos hall] at hstep
      obtain rfl := Option.some.inj hstep
      refine ⟨hnext,ok+1,?_,holds_read haware (hall docId haware) hholds⟩
      rcases hcount with hle | ⟨_,hle⟩
      · exact Or.inl (by omega)
      · refine Or.inr ⟨⟨fun d hd => grouped_xreadgroup known xreadCount (hall d hd),trivial⟩,?_⟩
        omega
    · rw [step,if_neg hall] at hstep
      obtain rfl := Option.some.inj hstep
      refine ⟨hnext,ok,Or.inr ⟨⟨fun d hd => absurd hd List.not_mem_nil,trivial⟩,?_⟩,hholds⟩
      rcases hcount with hle | ⟨hhealthy,_⟩
      · omega
      · exact absurd hhealthy.1 hall
  | _ => cases hstep

theorem progress_step (h : Progress docId n reads deletes w) (hstep : step w a = some t)
    (hfail : a ≠ .fail) (hkept : a ≠ .delete docId) :
    Progress docId n (reads+[a].count .readOnce) (deletes+[a].countP Action.deletes) t := by
  by_cases hread : a = .readOnce
  · subst hread
    exact progress_read h hstep
  · obtain ⟨haware,ok,hcount,hholds⟩ := h
    have hnone : [a].count .readOnce = 0 := List.count_eq_zero_of_not_mem (by simpa using Ne.symm hread)
    have hnext := step_aware (hholds.imp fun e he => he.1) haware hstep hfail hkept
    refine ⟨hnext,ok,?_,step_holds hholds hstep hkept⟩
    rw [hnone]
    by_cases hdelete : ∃ d, a = .delete d
    · obtain ⟨d,rfl⟩ := hdelete
      have hone : [Action.delete d].countP Action.deletes = 1 := rfl
      rw [hone]
      rcases hcount with hle | ⟨_,hle⟩ <;> exact Or.inl (by omega)
    · have hzero : [a].countP Action.deletes = 0 := by
        cases a with
        | delete d => exact absurd ⟨d,rfl⟩ hdelete
        | _ => rfl
      rw [hzero]
      rcases hcount with hle | ⟨hhealthy,hle⟩
      · exact Or.inl hle
      · exact Or.inr ⟨step_healthy hhealthy hstep (fun d hd => hdelete ⟨d,hd⟩),hle⟩

theorem progress_run (h : Progress docId n reads deletes w) (hrun : exec step w acts = some v)
    (hfail : .fail ∉ acts) (hkept : .delete docId ∉ acts) :
    Progress docId n (reads+acts.count .readOnce) (deletes+acts.countP Action.deletes) v := by
  induction acts generalizing w reads deletes with
  | nil =>
    obtain rfl := Option.some.inj hrun
    exact h
  | cons a acts ih =>
    obtain ⟨t,hstep,hrest⟩ := Option.bind_eq_some_iff.mp hrun
    rw [List.mem_cons,not_or] at hfail hkept
    have hnext := ih (progress_step h hstep (Ne.symm hfail.1) (Ne.symm hkept.1)) hrest
      hfail.2 hkept.2
    have hcount : (a::acts).count .readOnce = [a].count .readOnce+acts.count .readOnce := by
      rw [← List.singleton_append,List.count_append]
    have hcountP : (a::acts).countP Action.deletes =
        [a].countP Action.deletes+acts.countP Action.deletes := by
      rw [← List.singleton_append,List.countP_append]
    rw [hcount,hcountP,← Nat.add_assoc,← Nat.add_assoc]
    exact hnext

/-- Whatever the worker knew before, once a scan is due every stream is found: each later read,
but for one and one more for each stream deleted meanwhile, hands out the next fifty entries,
as long as there are any of those that the stream had. -/
theorem stream_found {now : ℚ} {e : Entries} (hidle : w.phase = .idle)
    (hdue : w.knownStreams = [] ∨ discoveryInterval ≤ now-w.lastScanAt)
    (hstream : w.streams.get docId = some e) (hrun : exec step w (.discover now::acts) = some v)
    (hfail : .fail ∉ acts) (hkept : .delete docId ∉ acts) :
    min e.length (xreadCount*(acts.count .readOnce-1-acts.countP Action.deletes)) ≤
      v.handedOut docId := by
  obtain ⟨t,hstep,hrest⟩ := Option.bind_eq_some_iff.mp hrun
  obtain ⟨streams,known,last,phase⟩ := w
  dsimp only at hidle hdue hstream
  subst hidle
  have hscan : ¬(now-last < discoveryInterval ∧ known ≠ []) := by
    rintro ⟨hrecent,hknown⟩
    rcases hdue with rfl | hdue
    · exact hknown rfl
    · exact absurd hrecent (not_lt.mpr hdue)
  rw [step] at hstep
  dsimp only at hstep
  rw [if_neg hscan] at hstep
  obtain rfl := Option.some.inj hstep
  have hstart : Progress docId e.length 0 0
      ⟨streams,known,now,.scanning (streams.entries.map Prod.fst) (streams.entries.map Prod.fst)⟩ :=
    ⟨mem_keys hstream,0,Or.inl (le_refl _),e,hstream,le_refl _,by simp⟩
  obtain ⟨_,ok,hcount,hholds⟩ := progress_run hstart hrest hfail hkept
  have hok : acts.count .readOnce-1-acts.countP Action.deletes ≤ ok := by
    rcases hcount with hle | ⟨_,hle⟩ <;> omega
  have hmore := Nat.mul_le_mul_left xreadCount hok
  exact le_trans (min_le_min_left _ hmore) (handedOut_holds hholds)

def rewritten : World where
  streams := OrderedMap.empty.set 1 ((Entries.empty.added).added).added
  knownStreams := [1]

def recovery : List Action :=
  [.scanned [1],.create,.readOnce,.discover 11,.scanned [1],.create,.create,.readOnce]

theorem rewritten_found :
    ∃ v, exec step rewritten (.discover 10::recovery) = some v ∧ 3 ≤ v.handedOut 1 := by
  have hrun : (exec step rewritten (.discover 10::recovery)).isSome = true := by decide +kernel
  obtain ⟨v,hv⟩ := Option.isSome_iff_exists.mp hrun
  refine ⟨v,hv,?_⟩
  exact stream_found (e := ((Entries.empty.added).added).added) rfl (Or.inr (by decide +kernel))
    rfl hv (by decide) (by decide)

end BlockDocs.StreamDiscovery
