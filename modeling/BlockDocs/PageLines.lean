import BlockDocs.BlockEditor

/-!
# The lines of a page after a handler call

`onEnter` puts the new block behind its own and all that is nested under it, and
`onBackspaceAtEmpty` takes one line away if nothing is nested under it. The slash menu does the
first at a root, and at any other block its new block comes last on the page.
-/

set_option autoImplicit false

namespace BlockDocs.PageLines
open BlockDocs.InsertionMap BlockDocs.Wire BlockDocs.BlockStore BlockDocs.ClientRun
open BlockDocs.ClientIndex BlockDocs.ParentChain BlockDocs.ForestWalk BlockDocs.PreOrder
open BlockDocs.GuardedRun BlockDocs.VisibleBlocks BlockDocs.LeafEdits BlockDocs.StableOrder
open BlockDocs.Outline BlockDocs.BlockOrder BlockDocs.BlockEditor

def Behind (m : Blocks) (a x : Uuid) (ids next : List Uuid) : Prop :=
  ∃ before below rest, ids = before++a::below++rest ∧
    (∀ y, y ∈ below ↔ y ≠ a ∧ Climbs (parentIn m) y a) ∧ next = before++a::below++x::rest

variable {m : Blocks} {s : Store} {e t : Editor} {a x : Uuid} {p : Option Uuid} {fuel : ℕ}
variable {ids next : List Uuid} {ordered lines : List Block} {block : Block} {index : ℕ}

theorem order_listed (h : Named m) : Listed some (order m) (parentIn m) id where
  mem := fun _ _ => mem_order h
  nodup := nodup_order h
  present := fun y _ _ => ⟨y,rfl⟩
  functional := parentIn_functional m
  labelled := fun _ _ hb => (Option.some.inj hb).symm

theorem level_bound (h : Named m) (n : ℕ) (y : Uuid) (hy : At (parentIn m) n y) :
    n ≤ (m.values.map Block.blockId).length := by
  refine (level_lt (parentIn_functional m) (fun k z hz => ?_) hy).le
  obtain ⟨o,c,hc,_⟩ : ∃ o, parentIn m z o := by
    cases hz with
    | root hroot => exact ⟨none,hroot⟩
    | child hup _ => exact ⟨_,hup⟩
  exact List.mem_map.mpr ⟨c,mem_values.mpr ⟨z,hc⟩,h z c hc⟩

theorem fresh_leaf (h : Tidy m) (hfresh : m.get x = none) : order m (some x) = [] := by
  apply List.eq_nil_iff_forall_not_mem.mpr
  intro y hy
  obtain ⟨c,hc,hp⟩ := (mem_order h.named).mp hy
  obtain ⟨d,hd⟩ := parent_known h.forest hc x hp
  cases hfresh.symm.trans hd

theorem childless_leaf (h : Named m) (hleaf : Childless m a) : order m (some a) = [] := by
  apply List.eq_nil_iff_forall_not_mem.mpr
  intro y hy
  obtain ⟨c,hc,hp⟩ := (mem_order h).mp hy
  exact hleaf y c hc hp

theorem rooted_at (h : Rooted (parentIn m) a) : ∃ n, At (parentIn m) n a := by
  obtain ⟨r,hr,hclimbs⟩ := rooted_iff_climbs.mp h
  exact at_below (.root hr) hclimbs

/-! ## A new line -/

theorem lines_behind (h : Tidy m) (hfresh : m.get x = none) (ha : parentIn m a p)
    (hids : walkAll some (order m) fuel = some ids) : ∃ next, Behind m a x ids next ∧
      walkAll some (Function.update (order m) p (insertBehind x (some a) (order m p))) fuel =
        some next := by
  have hl := order_listed h.named
  have hknown : Known m p := by
    obtain ⟨b,hb,rfl⟩ := ha
    exact parent_known h.forest hb
  obtain ⟨pre,post,hsplit⟩ := List.append_of_mem ((mem_order h.named).mpr ha)
  have hnew : a ∉ pre := by
    have hnodup := nodup_order h.named p
    rw [hsplit] at hnodup
    exact fun hmem => (List.nodup_cons.mp (List.nodup_middle.mp hnodup)).1
      (List.mem_append_left _ hmem)
  have hrooted : ∀ q, p = some q → Rooted (parentIn m) q := by
    intro q hq
    obtain ⟨c,hc⟩ := hknown q hq
    exact h.forest q c hc
  have hxp : some x ≠ p := by
    rintro rfl
    obtain ⟨c,hc⟩ := hknown x rfl
    cases hfresh.symm.trans hc
  obtain ⟨next,⟨before,sub,rest,less,rfl,hsub,rfl⟩,hnext⟩ :=
    listing_inserted hl hrooted hsplit (fresh_leaf h hfresh) hxp hids
  obtain ⟨b,hb,_⟩ := ha
  obtain ⟨n,hn⟩ := rooted_at (h.forest a b hb)
  obtain ⟨hone,hcovers⟩ := ended_covers hl (level_bound h.named) hn hsub
  cases less with
  | zero => cases hsub
  | succ less =>
    obtain ⟨outs,_,rfl⟩ := walk_some hsub
    refine ⟨_,⟨before,outs.flatten,rest,rfl,fun y => ?_,rfl⟩,?_⟩
    · have hy := hcovers y
      rw [List.mem_cons] at hy
      constructor
      · intro hmem
        obtain ⟨z,hz,hclimbs⟩ := hy.mp (Or.inr hmem)
        obtain rfl := Option.some.inj hz
        refine ⟨?_,hclimbs⟩
        rintro rfl
        exact (List.nodup_cons.mp hone).1 hmem
      · rintro ⟨hne,hclimbs⟩
        exact (hy.mpr ⟨y,rfl,hclimbs⟩).resolve_left hne
    · rw [hsplit,insertBehind_split hnew]
      exact hnext

/-! ## What each event does -/

/-- What the page lists after an event of the user. The others may list anything. -/
def LinesAfter (e : Editor) (ids next : List Uuid) : EditorEvent → Prop
  | .startWriting newId => next = [newId]
  | .handler index h => ∀ a, ids[index]? = some a →
    match h with
    | .onEnter newId => Behind e.store.blocks a newId ids next
    | .onBackspaceAtEmpty => Childless e.store.blocks a → next = ids.filter (· ≠ a)
    | .onMarkdownPaste _ _ => True
    | _ => next = ids
  | .onPick _ _ newId =>
    match e.slashFor with
    | none => next = ids
    | some a => (parentIn e.store.blocks a none → Behind e.store.blocks a newId ids next) ∧
      (¬parentIn e.store.blocks a none → next = ids++[newId])
  | .applyRemoteOps _ _ => True
  | .handleNack _ _ => True
  | _ => next = ids

theorem lines_of (h : Ready t.store) (ht : t.ordered = some lines)
    (hnext : walkAll some (order t.store.blocks) fuel = some next) :
    lines.map Block.blockId = next :=
  Sheet.lines_unique (sheet_lines h ht) ⟨fuel,hnext⟩

theorem handler_lines (h : Ready e.store) (ho : e.ordered = some ordered)
    (hi : ordered[index]? = some block) {hd : Handler} (hadm : Admitted e (.handler index hd))
    (ht : (makeHandlers ordered e block index hd).ordered = some lines) :
    LinesAfter e (ordered.map Block.blockId) (lines.map Block.blockId) (.handler index hd) := by
  have hready := (handler_turns h ho hi hd hadm).1
  have hget := line_block h ho hi
  obtain ⟨fuel,hids⟩ := sheet_lines h ho
  have hsame : order (makeHandlers ordered e block index hd).store.blocks =
      order e.store.blocks → lines.map Block.blockId = ordered.map Block.blockId := by
    intro heq
    exact lines_of hready ht ((congrArg (walkAll some · fuel) heq).trans hids)
  have hroom := hadm ordered block ho hi
  rintro a ha
  obtain rfl := Option.some.inj ((line_id hi).symm.trans ha)
  cases hd with
  | onEnter newId =>
    obtain ⟨next,hbehind,hnext⟩ := lines_behind h.tidy hroom.1 ⟨block,hget,rfl⟩ hids
    rw [← order_inserted h hroom (typeAfter block.type) none] at hnext
    have heq := lines_of hready ht hnext
    exact heq ▸ hbehind
  | onBackspaceAtEmpty =>
    intro hleaf
    have hkids := childless_leaf h.tidy.named hleaf
    have hnext := listing_removed hkids (dissolved_leaf (order_deleted h hget) hkids) hids
    have hstore : (makeHandlers ordered e block index .onBackspaceAtEmpty).store =
        e.store.deleteBlock block.blockId := by
      rw [makeHandlers]
      cases prevOf ordered index <;> rfl
    rw [← hstore] at hnext
    exact lines_of hready ht hnext
  | onBackspaceAtStart =>
    apply hsame
    rw [makeHandlers]
    cases prevOf ordered index <;> rfl
  | onSlash => exact hsame rfl
  | onArrowUp =>
    apply hsame
    rw [makeHandlers]
    cases prevOf ordered index <;> rfl
  | onArrowDown =>
    apply hsame
    rw [makeHandlers]
    cases ordered[index+1]? <;> rfl
  | onMarkdownPaste textLength templates => trivial
  | onFocus => exact hsame rfl

theorem picked_lines (h : Ready e.store) (ho : e.ordered = some ordered) {type : String}
    {level : Option ℕ} {newId : Uuid} (hadm : Admitted e (.onPick type level newId))
    (hready : Ready (onPick e type level newId).store)
    (ht : (onPick e type level newId).ordered = some lines) :
    LinesAfter e (ordered.map Block.blockId) (lines.map Block.blockId)
      (.onPick type level newId) := by
  obtain ⟨fuel,hids⟩ := sheet_lines h ho
  unfold LinesAfter
  unfold onPick at hready ht
  cases hslash : e.slashFor with
  | none =>
    rw [hslash] at hready ht
    exact lines_of hready ht hids
  | some a =>
    rw [hslash] at hready ht
    have hroom := hadm a hslash
    have hinserted := order_inserted h hroom type (some (pickedContent type level))
    refine ⟨fun hroot => ?_,fun hnested => ?_⟩
    · obtain ⟨next,hbehind,hnext⟩ := lines_behind h.tidy hroom.1 hroot hids
      rw [← hinserted] at hnext
      have heq := lines_of hready ht hnext
      exact heq ▸ hbehind
    · have habsent : a ∉ order e.store.blocks none :=
        fun hmem => hnested ((mem_order h.tidy.named).mp hmem)
      have hnext := listing_appended (order_listed h.tidy.named) (fresh_leaf h.tidy hroom.1) hids
      rw [← insertBehind_absent habsent,← hinserted] at hnext
      exact lines_of hready ht hnext

theorem event_lines (h : Ready e.store) {ev : EditorEvent} (hadm : Admitted e ev)
    (hstep : step e ev = some t) (ho : e.ordered = some ordered) (ht : t.ordered = some lines) :
    LinesAfter e (ordered.map Block.blockId) (lines.map Block.blockId) ev := by
  obtain ⟨hready,_⟩ := step_turns h hadm hstep
  obtain ⟨fuel,hids⟩ := sheet_lines h ho
  rw [step,ho,Option.bind_some] at hstep
  have hsame : order t.store.blocks = order e.store.blocks →
      lines.map Block.blockId = ordered.map Block.blockId := by
    intro heq
    exact lines_of hready ht ((congrArg (walkAll some · fuel) heq).trans hids)
  cases ev with
  | startWriting newId =>
    dsimp only at hstep
    split at hstep
    · next hempty =>
      obtain rfl := Option.some.inj hstep
      have hroom : Roomy e.store newId none none := hadm
      rw [List.isEmpty_iff.mp hempty] at hids
      have hnone : order e.store.blocks none = [] := walkAll_nil hids
      have hnext := listing_appended (order_listed h.tidy.named) (fresh_leaf h.tidy hroom.1) hids
      have hinserted := order_inserted h hroom "paragraph" none
      rw [hnone] at hinserted hnext
      rw [List.nil_append,← show insertBehind newId none [] = [newId] from rfl,
        ← hinserted] at hnext
      exact lines_of hready ht hnext
    · cases hstep
  | handler index hd =>
    obtain ⟨block,hi,rfl⟩ := Option.map_eq_some_iff.mp hstep
    exact handler_lines h ho hi hadm ht
  | onClose =>
    dsimp only at hstep
    split at hstep
    · cases hstep
    · obtain rfl := Option.some.inj hstep
      exact hsame rfl
  | onPick type level newId =>
    dsimp only at hstep
    split at hstep
    · cases hstep
    · obtain rfl := Option.some.inj hstep
      exact picked_lines h ho hadm hready ht
  | animationFrame =>
    obtain rfl := Option.some.inj hstep
    apply hsame
    rw [frames_focus]
  | updateAttrs blockId attrs =>
    obtain rfl := Option.some.inj hstep
    exact hsame (order_updateAttrs e.store blockId attrs)
  | applyRemoteOps ops streamId => trivial
  | handleAck clientSeq results =>
    obtain rfl := Option.some.inj hstep
    exact hsame (order_handleAck e.store clientSeq results)
  | handleNack clientSeq conflicts => trivial

/-- From a snapshot on, each event of the user does to the lines of the page what it says. -/
theorem page_lines {blocks : List Block} (hsnapshot : SnapshotForest blocks) (docId : DocId)
    (lastStreamId : StreamId) {events : List EditorEvent} {ev : EditorEvent}
    (hadm : Along step Admitted (opened docId blocks lastStreamId) events)
    (hrun : exec step (opened docId blocks lastStreamId) events = some e) (hev : Admitted e ev)
    (hstep : step e ev = some t) : ∃ ordered lines, e.ordered = some ordered ∧
      t.ordered = some lines ∧
      LinesAfter e (ordered.map Block.blockId) (lines.map Block.blockId) ev := by
  have hready := (run_turns (ready_opened hsnapshot docId lastStreamId) hadm hrun).1
  obtain ⟨ordered,ho⟩ := ordered_ends hready
  obtain ⟨lines,ht⟩ := ordered_ends (step_turns hready hev hstep).1
  exact ⟨ordered,lines,ho,ht,event_lines hready hev hstep ho ht⟩

theorem heading_listed : ∃ ordered lines, slashed.ordered = some ordered ∧
    (onPick slashed "heading" (some 1) 2).ordered = some lines ∧
      LinesAfter slashed (ordered.map Block.blockId) (lines.map Block.blockId)
        (.onPick "heading" (some 1) 2) := by
  have hadm : Along step Admitted (opened 1 [rootBlock] (toLex (0,0))) [.handler 0 .onSlash] :=
    along_cons slash_step (fun _ _ _ _ => trivial) trivial
  exact page_lines root_snapshot 1 (toLex (0,0)) hadm rfl pick_admitted rfl

end BlockDocs.PageLines
