import BlockDocs.GuardedRun
import BlockDocs.ReplayFrames

/-!
# Trim detection

Redis removes entries at the head of the stream. A replay compares its cursor
with the first entry that XINFO shows, and reads the range with a second
command.
-/

set_option autoImplicit false

namespace BlockDocs.TrimDetection
open BlockDocs.Wire BlockDocs.DeltaPipeline BlockDocs.StreamIds BlockDocs.ReplayFrames
open BlockDocs.GuardedRun

/-- All entries ever added, in the order of their ids: first those that have
been removed. Never are all of them removed. -/
structure Stream where
  removed : List StreamRecord
  kept : List StreamRecord
  sorted : (removed++kept).Pairwise (fun e f => e.id < f.id)
  nonempty : kept = [] → removed = []

def Stream.added (s : Stream) : List StreamRecord := s.removed++s.kept

def Stream.empty : Stream := ⟨[],[],List.Pairwise.nil,fun _ => rfl⟩

inductive Event where
  | xadd (record : StreamRecord)
  | trim (n : ℕ)

/-- Redis takes no id that is not above the last one. -/
def step (s : Stream) : Event → Option Stream
  | .xadd record =>
    if h : ∀ e ∈ s.added, e.id < record.id then some {
      removed := s.removed
      kept := s.kept++[record]
      sorted := by
        rw [← List.append_assoc]
        refine List.pairwise_append.mpr ⟨s.sorted,List.pairwise_singleton _ _,?_⟩
        intro e he f hf
        rw [List.mem_singleton.mp hf]
        exact h e he
      nonempty := fun hnil => absurd hnil (by simp) }
    else none
  | .trim n =>
    if h : n < s.kept.length then some {
      removed := s.removed++s.kept.take n
      kept := s.kept.drop n
      sorted := by
        rw [List.append_assoc,List.take_append_drop]
        exact s.sorted
      nonempty := fun hnil => absurd (List.drop_eq_nil_iff.mp hnil) (by omega) }
    else none

/-- The first entry that XINFO answers with, if it answers. -/
def Stream.first (s : Stream) (answers : Bool) : Option StreamId :=
  if answers then s.kept.head?.map StreamRecord.id else none

/-- A replay that asked XINFO before and the range after, and that reports no
trim, has read every entry above its cursor that was ever added. -/
def Sound (J : JsonText) (answers : Bool) (before after : Stream) (sinceStreamId : List Char)
    (cursor : StreamId) : Prop :=
  ∀ r, runReplay J (before.first answers) after.kept sinceStreamId = some r →
    r.trimmed = false → ∀ e ∈ after.added, cursor < e.id →
      e ∈ after.kept.filter (fun e => cursor < e.id)

def Compared (answers : Bool) (sinceStreamId : List Char) : Prop :=
  answers = true ∧ sinceStreamId ≠ "0-0".toList

def Spares (cursor : StreamId) (s : Stream) : Event → Prop
  | .xadd _ => True
  | .trim n => ∀ e ∈ s.kept.take n, e.id ≤ cursor

variable {J : JsonText} {s t before after : Stream} {cursor : StreamId} {answers : Bool}
  {sinceStreamId : List Char}

theorem kept_of_added {e : StreamRecord} (h : e ∈ s.added) (hr : e ∉ s.removed) : e ∈ s.kept :=
  (List.mem_append.mp h).resolve_left hr

theorem removed_below {e f : StreamRecord} (he : e ∈ s.removed) (hf : f ∈ s.kept) :
    e.id < f.id :=
  (List.pairwise_append.mp s.sorted).2.2 e he f hf

theorem removed_step (cursor : StreamId) {a : Event} (h : step s a = some t) : ∃ out,
    t.removed = s.removed++out ∧ (Spares cursor s a ↔ ∀ e ∈ out, e.id ≤ cursor) := by
  cases a with
  | xadd record =>
    rw [step] at h
    split at h
    · obtain rfl := Option.some.inj h
      exact ⟨[],(List.append_nil _).symm,iff_of_true trivial (by simp)⟩
    · cases h
  | trim n =>
    rw [step] at h
    split at h
    · obtain rfl := Option.some.inj h
      exact ⟨s.kept.take n,rfl,Iff.rfl⟩
    · cases h

/-- What a history removes, and when it spares what is above a cursor. -/
theorem removed_exec (cursor : StreamId) {events : List Event}
    (h : exec step s events = some t) : ∃ out,
    t.removed = s.removed++out ∧
      (Along step (Spares cursor) s events ↔ ∀ e ∈ out, e.id ≤ cursor) := by
  induction events generalizing s with
  | nil =>
    obtain rfl := Option.some.inj h
    exact ⟨[],(List.append_nil _).symm,iff_of_true trivial (by simp)⟩
  | cons a events ih =>
    obtain ⟨u,hu,hrest⟩ := Option.bind_eq_some_iff.mp h
    obtain ⟨out,hout,hspares⟩ := removed_step cursor hu
    obtain ⟨out',hout',halong⟩ := ih hrest
    refine ⟨out++out',by rw [hout',hout,List.append_assoc],?_⟩
    have hhead : Along step (Spares cursor) s (a::events) ↔
        Spares cursor s a ∧ Along step (Spares cursor) u events :=
      ⟨fun h => h u hu,fun h => along_cons hu h.1 h.2⟩
    rw [hhead,hspares,halong]
    simp only [List.mem_append,or_imp,forall_and]

theorem reportsTrim_iff (hcursor : readStreamId sinceStreamId = some cursor) :
    reportsTrim (before.first answers) sinceStreamId = true ↔
      Compared answers sinceStreamId ∧ ∃ e, before.kept.head? = some e ∧ cursor < e.id := by
  unfold reportsTrim Stream.first Compared
  rw [hcursor,Bool.and_eq_true,decide_eq_true_eq]
  cases answers with
  | false => simp
  | true =>
    cases before.kept.head? with
    | none => simp
    | some e => simp

/-- Where the comparison finds no trim, nothing above the cursor has been
removed so far. -/
theorem compared_spared (h : ¬∃ e, before.kept.head? = some e ∧ cursor < e.id)
    {e : StreamRecord} (he : e ∈ before.removed) : e.id ≤ cursor := by
  have hsome : before.kept ≠ [] := fun hnil => List.ne_nil_of_mem he (before.nonempty hnil)
  have hhead := List.head?_eq_some_head hsome
  have hfirst : ¬cursor < (before.kept.head hsome).id := fun hlt => h ⟨_,hhead,hlt⟩
  exact ((removed_below he (List.head_mem hsome)).trans_le (not_lt.mp hfirst)).le

theorem sound_iff_removed (hcursor : readStreamId sinceStreamId = some cursor) :
    Sound J answers before after sinceStreamId cursor ↔
      reportsTrim (before.first answers) sinceStreamId = true ∨
        ∀ e ∈ after.removed, e.id ≤ cursor := by
  by_cases hreport : reportsTrim (before.first answers) sinceStreamId = true
  · refine iff_of_true ?_ (Or.inl hreport)
    intro r hr htrimmed
    rw [runReplay,if_pos hreport] at hr
    rw [← Option.some.inj hr] at htrimmed
    cases htrimmed
  · rw [or_iff_right hreport]
    constructor
    · intro h e he
      by_contra habove
      obtain ⟨r,hr,hkept⟩ : ∃ r, runReplay J (before.first answers) after.kept sinceStreamId =
          some r ∧ r.trimmed = false := by
        rw [runReplay,if_neg hreport,hcursor,Option.map_some]
        refine ⟨_,rfl,?_⟩
        exact trimmed_entries _ _ _
      have hread := h r hr hkept e (List.mem_append_left _ he) (not_le.mp habove)
      exact lt_irrefl _ (removed_below he (List.mem_filter.mp hread).1)
    · intro h r _ _ e he habove
      refine List.mem_filter.mpr ⟨kept_of_added he ?_,decide_eq_true habove⟩
      exact fun hremoved => absurd habove (not_lt.mpr (h e hremoved))

/-- The replay misses nothing exactly when it reports a trim, or nothing above
its cursor goes between its two commands and, where no comparison was made,
nothing went before. -/
theorem trims_detected_iff {earlier meanwhile : List Event}
    (hbefore : exec step Stream.empty earlier = some before)
    (hafter : exec step before meanwhile = some after)
    (hcursor : readStreamId sinceStreamId = some cursor) :
    Sound J answers before after sinceStreamId cursor ↔
      (Compared answers sinceStreamId ∧ ∃ e, before.kept.head? = some e ∧ cursor < e.id) ∨
      ((Compared answers sinceStreamId ∨ Along step (Spares cursor) Stream.empty earlier) ∧
        Along step (Spares cursor) before meanwhile) := by
  obtain ⟨out,hout,hearlier⟩ := removed_exec cursor hbefore
  obtain ⟨out',hout',hmeanwhile⟩ := removed_exec cursor hafter
  have hremoved : before.removed = out := hout
  rw [sound_iff_removed hcursor,reportsTrim_iff hcursor,hearlier,hmeanwhile,hout',hremoved]
  simp only [List.mem_append,or_imp,forall_and]
  by_cases hcompared : Compared answers sinceStreamId
  · by_cases hfirst : ∃ e, before.kept.head? = some e ∧ cursor < e.id
    · exact iff_of_true (Or.inl ⟨hcompared,hfirst⟩) (Or.inl ⟨hcompared,hfirst⟩)
    · have hspared : ∀ e ∈ out, e.id ≤ cursor :=
        fun e he => compared_spared hfirst (hremoved ▸ he)
      simp only [hcompared,hfirst,true_and,false_or,true_or]
      exact and_iff_right hspared
  · simp only [hcompared,false_and,false_or]

def entryAt (ms : ℕ) : StreamRecord := ⟨toLex (ms,0),xaddFields typedMessage 7⟩

/-- The oldest entry is trimmed before the replay; the cursor is above it. -/
theorem trim_below_cursor_harmless : ∃ before after,
    exec step Stream.empty [.xadd (entryAt 1),.xadd (entryAt 2),.trim 1] = some before ∧
    exec step before [.xadd (entryAt 3)] = some after ∧
    (Sound sampleJson true before after "2-0".toList (toLex (2,0)) ↔
      (Compared true "2-0".toList ∧ ∃ e, before.kept.head? = some e ∧ toLex (2,0) < e.id) ∨
      ((Compared true "2-0".toList ∨ Along step (Spares (toLex (2,0))) Stream.empty
          [.xadd (entryAt 1),.xadd (entryAt 2),.trim 1]) ∧
        Along step (Spares (toLex (2,0))) before [.xadd (entryAt 3)])) := by
  refine ⟨_,_,rfl,rfl,?_⟩
  exact trims_detected_iff rfl rfl (by decide)

theorem missed_of_removed {e : StreamRecord} (hcursor : readStreamId sinceStreamId = some cursor)
    (hquiet : reportsTrim (before.first answers) sinceStreamId = false)
    (he : e ∈ after.removed) (habove : cursor < e.id) :
    ¬Sound J answers before after sinceStreamId cursor := by
  intro h
  rcases (sound_iff_removed hcursor).mp h with hreport | hbelow
  · exact Bool.false_ne_true (hquiet.symm.trans hreport)
  · exact absurd habove (not_lt.mpr (hbelow e he))

/-- A client whose cursor is `0-0` is not told that the first entry is gone,
nor one whose next entry goes between XINFO and XRANGE. -/
theorem trims_undetected :
    (∃ before, exec step Stream.empty [.xadd (entryAt 1),.xadd (entryAt 2),.trim 1] =
        some before ∧ ¬Sound sampleJson true before before "0-0".toList (toLex (0,0))) ∧
    ∃ before after,
      exec step Stream.empty [.xadd (entryAt 1),.xadd (entryAt 2),.xadd (entryAt 3)] =
        some before ∧
      exec step before [.trim 2] = some after ∧
      ¬Sound sampleJson true before after "1-0".toList (toLex (1,0)) := by
  refine ⟨⟨_,rfl,?_⟩,⟨_,_,rfl,rfl,?_⟩⟩
  · exact missed_of_removed (e := entryAt 1) (by decide) (by decide) (List.mem_cons_self)
      (by decide)
  · exact missed_of_removed (e := entryAt 2) (by decide) (by decide)
      (List.mem_cons_of_mem _ List.mem_cons_self) (by decide)

end BlockDocs.TrimDetection
