import BlockDocs.InlineText

/-!
# Writing and reading inline nodes

A node without marks passes no attributes to the text, so behind a marked one it takes
over the marks. Everything else comes back.
-/

set_option autoImplicit false

namespace BlockDocs.InlineRoundTrip
open BlockDocs.InsertionMap BlockDocs.Wire BlockDocs.Crdt BlockDocs.InlineNodes
open BlockDocs.RichText BlockDocs.InlineText

variable {t u : YText}

/-! ## What comes back -/

def nodeMarks : InlineNode → Option (List Mark)
  | .text _ marks => some marks
  | .mention _ => none

/-- No empty texts, and no texts with the same marks side by side. -/
structure Merged (nodes : List InlineNode) : Prop where
  filled : ∀ s marks, .text s marks ∈ nodes → s ≠ ""
  apart : nodes.IsChain (fun n n' => ∀ ms ms', nodeMarks n = some ms → nodeMarks n' = some ms' →
    ¬ms.Perm ms')

/-- The nodes come back, with empty texts left out and equal neighbours joined. -/
def RoundTrip (runs : List (Chunk × Option JsonObj)) (nodes : List InlineNode) : Prop :=
  List.Forall₂ SameItem (items (readInlineNodes runs)) (items nodes) ∧
    Merged (readInlineNodes runs)

def WellFormed : InlineNode → Prop
  | .text _ marks => Attributed marks
  | .mention attrs => ∃ fields, attrs = .obj fields

def shown : InlineNode → Bool
  | .text s _ => s ≠ ""
  | .mention _ => true

def marked (n : InlineNode) : Bool := (nodeMarks n).any (fun ms => !ms.isEmpty)

def unmarked (n : InlineNode) : Bool := (nodeMarks n).any List.isEmpty

def NoCarry (n n' : InlineNode) : Prop := ¬(marked n ∧ unmarked n')

def Bare (nodes : List InlineNode) : Prop :=
  ∀ n ∈ nodes, shown n → ∀ ms, nodeMarks n = some ms → ∀ m ∈ ms,
    m.type.simple = true → m.attrs = none

/-- No text without marks comes right after one with marks, empty texts aside. -/
def Separated (nodes : List InlineNode) : Prop :=
  (nodes.filter shown).IsChain NoCarry ∧ Bare nodes

theorem chars_same_iff {s : List UInt16} (hs : s ≠ []) {marks marks' : List Mark} :
    List.Forall₂ SameItem (s.map (fun c => .char c marks)) (s.map (fun c => .char c marks')) ↔
      marks.Perm marks' := by
  constructor
  · intro h
    obtain ⟨c,rest,rfl⟩ := List.exists_cons_of_ne_nil hs
    cases h with
    | cons hone _ =>
      cases hone with
      | char _ hperm => exact hperm
  · intro hperm
    induction s with
    | nil => exact absurd rfl hs
    | cons c rest ih =>
      cases rest with
      | nil => exact .cons (.char c hperm) .nil
      | cons c' rest => exact .cons (.char c hperm) (ih (List.cons_ne_nil _ _))

theorem bare_text {s : String} {marks : List Mark} {nodes : List InlineNode} (hs : s ≠ "") :
    Bare (.text s marks::nodes) ↔
      (∀ m ∈ marks, m.type.simple = true → m.attrs = none) ∧ Bare nodes := by
  have hshown : shown (.text s marks) = true := decide_eq_true hs
  simp [Bare,hshown,nodeMarks]

theorem bare_hidden {n : InlineNode} {nodes : List InlineNode}
    (h : shown n = true → nodeMarks n = none) : Bare (n::nodes) ↔ Bare nodes := by
  refine List.forall_mem_cons.trans (and_iff_right ?_)
  intro hshown ms hms
  rw [h hshown] at hms
  cases hms

theorem noCarry_unmarked {p : InlineNode} {s : String} :
    NoCarry p (.text s []) ↔ marked p = false := by
  have hunmarked : unmarked (.text s []) = true := rfl
  rw [NoCarry,hunmarked,and_iff_left rfl,Bool.not_eq_true]

theorem noCarry_marked {p : InlineNode} {s : String} {m : Mark} {ms : List Mark} :
    NoCarry p (.text s (m::ms)) := by
  intro h
  exact absurd h.2 (by simp [unmarked,nodeMarks])

theorem noCarry_mention {p : InlineNode} {attrs : Json} : NoCarry p (.mention attrs) := by
  intro h
  exact absurd h.2 (by simp [unmarked,nodeMarks])

/-- The marks of a text come back where none are taken over and all are bare. -/
theorem marks_same_iff {marks : List Mark} (hn : Attributed marks) {p : InlineNode} (s : String)
    {last : Option JsonObj} (hlast : formatToMarks last = [] ↔ marked p = false) :
    (formatToMarks ((marksToFormat marks).or last)).Perm marks ↔
      NoCarry p (.text s marks) ∧ ∀ m ∈ marks, m.type.simple = true → m.attrs = none := by
  cases marks with
  | nil =>
    have hnone : (marksToFormat []).or last = last := rfl
    rw [hnone,List.perm_nil,hlast,noCarry_unmarked]
    exact (and_iff_left nofun).symm
  | cons m ms =>
    have hread := formatToMarks_same hn (sameFormat_refl _)
    have hformat : (marksToFormat (m::ms)).or last = marksToFormat (m::ms) := by
      rw [marksToFormat_distinct hn.1]
      rfl
    rw [hformat,and_iff_right noCarry_marked,← stripped_perm_iff]
    exact ⟨fun h => hread.symm.trans h,fun h => hread.trans h⟩

theorem marked_of_same {format : Option JsonObj} {marks : List Mark} (s : String)
    (h : (formatToMarks format).Perm marks) :
    formatToMarks format = [] ↔ marked (.text s marks) = false := by
  cases marks with
  | nil => exact iff_of_true h.eq_nil rfl
  | cons m ms =>
    refine iff_of_false (fun hnil => ?_) (by simp [marked,nodeMarks])
    rw [hnil] at h
    exact absurd h.nil_eq (by simp)

theorem items_cons (n : InlineNode) (nodes : List InlineNode) :
    items (n::nodes) = nodeItems n++items nodes := rfl

/-- Behind a unit of `p`, which has the attributes `last`. -/
theorem units_same_iff {nodes : List InlineNode} (hwf : ∀ n ∈ nodes, WellFormed n)
    {p : InlineNode} {last : Option JsonObj} (hlast : formatToMarks last = [] ↔ marked p = false) :
    List.Forall₂ SameItem ((unitsAfter last nodes).flatMap unitItems) (items nodes) ↔
      (p::nodes.filter shown).IsChain NoCarry ∧ Bare nodes := by
  induction nodes generalizing p last with
  | nil => exact iff_of_true .nil ⟨List.isChain_singleton p,nofun⟩
  | cons n nodes ih =>
    obtain ⟨hn,hrest⟩ := List.forall_mem_cons.mp hwf
    rw [items_cons]
    cases n with
    | text s marks =>
      rw [unitsAfter,List.flatMap_append,chars_items,nodeItems]
      by_cases hs : s = ""
      · have hhidden : shown (.text s marks) = false := decide_eq_false (not_not.mpr hs)
        rw [if_pos hs,codeUnits_eq_nil.mpr hs,List.filter_cons_of_neg (by rw [hhidden]; simp),
          bare_hidden (fun h => absurd (hhidden.symm.trans h) Bool.false_ne_true)]
        exact ih hrest hlast
      · have hshown : shown (.text s marks) = true := decide_eq_true hs
        have hunits : codeUnits s ≠ [] := fun h => hs (codeUnits_eq_nil.mp h)
        rw [if_neg hs,sameItems_append_iff (by rw [List.length_map,List.length_map]),
          chars_same_iff hunits,List.filter_cons_of_pos hshown,List.isChain_cons_cons,bare_text hs,
          and_congr_right (fun hsame => ih hrest (marked_of_same s hsame)),
          marks_same_iff hn s hlast,and_assoc,and_assoc]
        exact and_congr_right fun _ => and_left_comm
    | mention attrs =>
      obtain ⟨fields,rfl⟩ := hn
      have hunit : ∀ f, unitItems (.embed (.obj [("mention",.obj fields)]),f) =
          [.mention (.obj fields)] := fun _ => rfl
      have hlast' : formatToMarks none = [] ↔ marked (.mention (.obj fields)) = false :=
        iff_of_true rfl rfl
      have hself : List.Forall₂ SameItem [.mention (.obj fields)] [.mention (.obj fields)] :=
        .cons (.mention _) .nil
      rw [unitsAfter,List.flatMap_cons,hunit,nodeItems,List.filter_cons_of_pos rfl,
        List.isChain_cons_cons,bare_hidden (fun _ => rfl),sameItems_append_iff rfl,
        and_iff_right hself,and_iff_right noCarry_mention]
      exact ih hrest hlast'

/-! ## Runs -/

theorem sameFormat_symm {f g : Option JsonObj} (h : SameFormat f g) : SameFormat g f := by
  cases h with
  | none => exact .none
  | some hperm => exact .some hperm.symm

theorem sameFormat_trans {f g k : Option JsonObj} (h : SameFormat f g) (h' : SameFormat g k) :
    SameFormat f k := by
  cases h with
  | none => exact h'
  | some hperm =>
    cases h' with
    | some hperm' => exact .some (hperm.trans hperm')

theorem sameUnit_trans {x y z : Content UInt16 Json × Option JsonObj} (h : SameUnit x y)
    (h' : SameUnit y z) : SameUnit x z :=
  ⟨h.1.trans h'.1,sameFormat_trans h.2 h'.2⟩

theorem codeUnits_append (s s' : String) : codeUnits (s++s') = codeUnits s++codeUnits s' := by
  rw [codeUnits,String.toList_append,List.flatMap_append]
  rfl

theorem chars_same {f g : Option JsonObj} (h : SameFormat f g) (s : List UInt16) :
    List.Forall₂ SameUnit (chars s f) (chars s g) := by
  induction s with
  | nil => exact .nil
  | cons c s ih => exact .cons ⟨rfl,h⟩ ih

theorem sameUnits_refl (t : YText) : List.Forall₂ SameUnit t t :=
  List.forall₂_same.mpr fun u _ => ⟨rfl,sameFormat_refl u.2⟩

theorem delta_embed {runs : List (Chunk × Option JsonObj)} {t : YText} (value : Json)
    (h : Delta runs t) : Delta ((.embed value,none)::runs) ((.embed value,none)::t) where
  units := .cons ⟨rfl,.none⟩ h.units
  filled := by
    intro s f hmem
    rcases List.mem_cons.mp hmem with heq | hmem
    · cases heq
    · exact h.filled s f hmem
  maximal := List.isChain_cons.mpr ⟨fun _ _ _ _ hf => (nomatch hf),h.maximal⟩

theorem delta_cons {runs : List (Chunk × Option JsonObj)} {t : YText} {s : String}
    {f : Option JsonObj} (hs : s ≠ "") (h : Delta runs t)
    (hfirst : ∀ r ∈ runs.head?, ∀ g, textFormat r = some g → ¬SameFormat f g) :
    Delta ((.text s,f)::runs) (chars (codeUnits s) f++t) where
  units := List.rel_append (sameUnits_refl _) h.units
  filled := by
    intro s' g hmem
    rcases List.mem_cons.mp hmem with heq | hmem
    · cases heq
      exact hs
    · exact h.filled s' g hmem
  maximal := by
    refine List.isChain_cons.mpr ⟨fun r hr g g' hg hg' => ?_,h.maximal⟩
    cases hg
    exact hfirst r hr g' hg'

/-- Text in front of a text has runs as well, joined with the first one if need be. -/
theorem delta_text {runs : List (Chunk × Option JsonObj)} {t : YText} {s : String}
    {f : Option JsonObj} (hs : s ≠ "") (h : Delta runs t) :
    ∃ runs', Delta runs' (chars (codeUnits s) f++t) := by
  by_cases hjoin : ∃ s' g rest, runs = (.text s',g)::rest ∧ SameFormat f g
  · obtain ⟨s',g,rest,rfl,hsame⟩ := hjoin
    refine ⟨(.text (s++s'),f)::rest,?_,?_,?_⟩
    · have hunits := h.units
      rw [List.flatMap_cons] at hunits ⊢
      have hboth : runUnits (.text (s++s'),f) =
          chars (codeUnits s) f++chars (codeUnits s') f := by
        rw [runUnits,codeUnits_append,chars,List.map_append]
        rfl
      rw [hboth,List.append_assoc]
      refine List.rel_append (sameUnits_refl _) ?_
      exact forall₂_trans (R := SameUnit) (fun _ _ _ => sameUnit_trans)
        (List.rel_append (chars_same hsame _) (sameUnits_refl _)) hunits
    · intro s'' k hmem
      rcases List.mem_cons.mp hmem with heq | hmem
      · cases heq
        exact fun hempty => hs (String.append_eq_empty_iff.mp hempty).1
      · exact h.filled s'' k (List.mem_cons_of_mem _ hmem)
    · obtain ⟨hhead,hrest⟩ := List.isChain_cons.mp h.maximal
      refine List.isChain_cons.mpr ⟨fun r hr k k' hk hk' hsame' => ?_,hrest⟩
      cases hk
      exact hhead r hr g k' rfl hk' (sameFormat_trans (sameFormat_symm hsame) hsame')
  · refine ⟨_,delta_cons hs h fun r hr g hg hsame => hjoin ?_⟩
    obtain ⟨rest,hruns⟩ := List.head?_eq_some_iff.mp hr
    obtain ⟨chunk,k⟩ := r
    cases chunk with
    | text s' =>
      cases hg
      exact ⟨s',g,rest,hruns,hsame⟩
    | embed value => cases hg

/-- What is written can be read in runs. -/
theorem delta_exists (nodes : List InlineNode) (last : Option JsonObj) :
    ∃ runs, Delta runs (unitsAfter last nodes) := by
  induction nodes generalizing last with
  | nil => exact ⟨[],.nil,nofun,.nil⟩
  | cons n nodes ih =>
    cases n with
    | text s marks =>
      rw [unitsAfter]
      obtain ⟨runs,hruns⟩ := ih (if s = "" then last else (marksToFormat marks).or last)
      by_cases hs : s = ""
      · rw [codeUnits_eq_nil.mpr hs]
        exact ⟨runs,hruns⟩
      · exact delta_text hs hruns
    | mention attrs =>
      obtain ⟨runs,hruns⟩ := ih none
      exact ⟨_,delta_embed _ hruns⟩

/-! ## Formats of what is written -/

def OfMarks (f : Option JsonObj) : Prop :=
  ∃ marks, Attributed marks ∧ SameFormat f (marksToFormat marks)

theorem ofMarks_none : OfMarks none := ⟨[],⟨List.nodup_nil,nofun⟩,.none⟩

/-- The marks determine the attributes. -/
theorem format_of_marks {f g : Option JsonObj} (hf : OfMarks f) (hg : OfMarks g)
    (h : (formatToMarks f).Perm (formatToMarks g)) : SameFormat f g := by
  obtain ⟨ms,hms,hf⟩ := hf
  obtain ⟨ms',hms',hg⟩ := hg
  have hstripped := (formatToMarks_same hms hf).symm.trans (h.trans (formatToMarks_same hms' hg))
  have hentries : ∀ marks : List Mark,
      (marks.map stripped).map formatEntry = marks.map formatEntry := by
    intro marks
    rw [List.map_map]
    exact List.map_congr_left (fun m _ => formatEntry_stripped m)
  have hperm := hstripped.map formatEntry
  rw [hentries,hentries] at hperm
  have hempty : ms.isEmpty = ms'.isEmpty := by
    have hmap := hperm.isEmpty_eq
    rwa [List.isEmpty_map,List.isEmpty_map] at hmap
  have hsame : SameFormat (marksToFormat ms) (marksToFormat ms') := by
    rw [marksToFormat_distinct hms.1,marksToFormat_distinct hms'.1,hempty]
    split
    · exact .none
    · exact .some hperm
  exact sameFormat_trans hf (sameFormat_trans hsame (sameFormat_symm hg))

def FromNodes (u : Content UInt16 Json × Option JsonObj) : Prop :=
  match u.1 with
  | .char _ => OfMarks u.2
  | .embed value => ∃ fields, value = .obj [("mention",.obj fields)]

theorem units_fromNodes {nodes : List InlineNode} (hwf : ∀ n ∈ nodes, WellFormed n)
    {last : Option JsonObj} (hlast : OfMarks last) : ∀ u ∈ unitsAfter last nodes, FromNodes u := by
  induction nodes generalizing last with
  | nil => exact nofun
  | cons n nodes ih =>
    obtain ⟨hn,hrest⟩ := List.forall_mem_cons.mp hwf
    cases n with
    | text s marks =>
      have hformat : OfMarks ((marksToFormat marks).or last) := by
        cases marks with
        | nil => exact hlast
        | cons m ms =>
          rw [marksToFormat_distinct hn.1]
          exact ⟨m::ms,hn,by rw [marksToFormat_distinct hn.1]; exact sameFormat_refl _⟩
      intro u hu
      rw [unitsAfter] at hu
      rcases List.mem_append.mp hu with hu | hu
      · obtain ⟨c,_,rfl⟩ := List.mem_map.mp hu
        exact hformat
      · refine ih hrest ?_ u hu
        split
        · exact hlast
        · exact hformat
    | mention attrs =>
      obtain ⟨fields,rfl⟩ := hn
      exact List.forall_mem_cons.mpr ⟨⟨fields,rfl⟩,ih hrest ofMarks_none⟩

theorem same_mem {t u : YText} (h : List.Forall₂ SameUnit t u)
    {x : Content UInt16 Json × Option JsonObj} (hx : x ∈ t) : ∃ y ∈ u, SameUnit x y := by
  induction h with
  | nil => cases hx
  | @cons x' y' _ _ hone _ ih =>
    rcases List.mem_cons.mp hx with rfl | hx
    · exact ⟨y',List.mem_cons_self,hone⟩
    · obtain ⟨y,hy,hsame⟩ := ih hx
      exact ⟨y,List.mem_cons_of_mem _ hy,hsame⟩

def RunFromNodes (run : Chunk × Option JsonObj) : Prop :=
  match run.1 with
  | .text _ => OfMarks run.2
  | .embed value => ∃ fields, value = .obj [("mention",.obj fields)]

theorem runs_fromNodes {runs : List (Chunk × Option JsonObj)} {t : YText} (h : Delta runs t)
    (ht : ∀ u ∈ t, FromNodes u) : ∀ run ∈ runs, RunFromNodes run := by
  rintro ⟨chunk,format⟩ hrun
  have hfrom : ∀ u ∈ runUnits (chunk,format), FromNodes u := by
    intro u hu
    obtain ⟨y,hy,hcontent,hformat⟩ := same_mem h.units (List.mem_flatMap_of_mem hrun hu)
    have hyfrom := ht y hy
    obtain ⟨content,f⟩ := u
    obtain ⟨content',f'⟩ := y
    cases hcontent
    cases content with
    | char c =>
      obtain ⟨marks,hmarks,hsame⟩ := hyfrom
      exact ⟨marks,hmarks,sameFormat_trans hformat hsame⟩
    | embed value => exact hyfrom
  cases chunk with
  | text s =>
    obtain ⟨c,rest,hunits⟩ := List.exists_cons_of_ne_nil
      (fun h' => h.filled s format hrun (codeUnits_eq_nil.mp h'))
    refine hfrom (.char c,format) ?_
    rw [runUnits,hunits]
    exact List.mem_cons_self
  | embed value => exact hfrom (.embed value,format) List.mem_cons_self

theorem readRun_fromNodes {run : Chunk × Option JsonObj} (h : RunFromNodes run) :
    ∃ n, readRun run = some n ∧ nodeMarks n = (textFormat run).map formatToMarks := by
  obtain ⟨chunk,format⟩ := run
  cases chunk with
  | text s => exact ⟨_,rfl,rfl⟩
  | embed value =>
    obtain ⟨fields,rfl⟩ := h
    exact ⟨_,rfl,rfl⟩

theorem read_merged {runs : List (Chunk × Option JsonObj)} {t : YText} (h : Delta runs t)
    (ht : ∀ u ∈ t, FromNodes u) : Merged (readInlineNodes runs) where
  filled := by
    intro s marks hmem
    obtain ⟨⟨chunk,format⟩,hrun,hread⟩ := List.mem_filterMap.mp hmem
    cases chunk with
    | text s' =>
      cases hread
      exact h.filled s format hrun
    | embed value =>
      obtain ⟨fields,hfields⟩ := runs_fromNodes h ht _ hrun
      cases hfields
      cases hread
  apart := by
    have hruns := runs_fromNodes h ht
    have hmap : readInlineNodes runs = runs.map (fun r => (readRun r).getD (.mention .null)) := by
      rw [readInlineNodes,← List.filterMap_eq_map]
      refine List.filterMap_congr fun run hrun => ?_
      obtain ⟨n,hn,_⟩ := readRun_fromNodes (hruns run hrun)
      rw [hn,Function.comp_apply,hn,Option.getD_some]
    rw [hmap,List.isChain_map]
    refine h.maximal.imp_of_mem_imp fun r r' hr hr' hne ms ms' hms hms' hperm => ?_
    obtain ⟨n,hn,hmarks⟩ := readRun_fromNodes (hruns r hr)
    obtain ⟨n',hn',hmarks'⟩ := readRun_fromNodes (hruns r' hr')
    rw [hn,Option.getD_some,hmarks] at hms
    rw [hn',Option.getD_some,hmarks'] at hms'
    obtain ⟨f,hf,rfl⟩ := Option.map_eq_some_iff.mp hms
    obtain ⟨f',hf',rfl⟩ := Option.map_eq_some_iff.mp hms'
    have hof : ∀ {run : Chunk × Option JsonObj} {f}, run ∈ runs → textFormat run = some f →
        OfMarks f := by
      rintro ⟨chunk,format⟩ f hrun hf
      have hfrom := hruns _ hrun
      cases chunk with
      | text s =>
        cases hf
        exact hfrom
      | embed value => cases hf
    exact hne f f' hf hf' (format_of_marks (hof hr hf) (hof hr' hf') hperm)

/-- Inline nodes come back from an empty text exactly when none of them takes over the
marks of the one before it, and no simple mark has attributes. -/
theorem roundTrip_iff {nodes : List InlineNode} (hwf : ∀ n ∈ nodes, WellFormed n) :
    (∃ runs, Delta runs (written nodes)) ∧ ∀ runs, Delta runs (written nodes) →
      (RoundTrip runs nodes ↔ Separated nodes) := by
  rw [written_eq]
  refine ⟨delta_exists nodes none,fun runs hdelta => ?_⟩
  have hmerged := read_merged hdelta (units_fromNodes hwf ofMarks_none)
  have hread : List.Forall₂ SameItem (items (readInlineNodes runs)) (items nodes) ↔
      List.Forall₂ SameItem ((unitsAfter none nodes).flatMap unitItems) (items nodes) := by
    have hunits := sameItems_units hdelta.units
    rw [← items_read] at hunits
    have htrans := fun {a b c} => forall₂_trans (R := SameItem) (k := a) (l := b) (m := c)
      (fun _ _ _ => sameItem_trans)
    exact ⟨htrans (sameItems_symm hunits),htrans hunits⟩
  have hstart : marked (.mention .null) = false := rfl
  rw [RoundTrip,and_iff_left hmerged,hread,
    units_same_iff hwf (p := .mention .null) (iff_of_true rfl hstart),Separated,List.isChain_cons]
  refine and_congr_left' (and_iff_right ?_)
  exact fun n _ hcarry => absurd (hstart.symm.trans hcarry.1) Bool.false_ne_true

def separatedNodes : List InlineNode :=
  [.text "a" [plainMark .bold],.mention kim,.text "b" []]

theorem plain_attributed : ∀ marks ∈ [[plainMark .bold],[]], Attributed marks := by
  intro marks hmarks
  simp only [List.mem_cons,List.not_mem_nil,or_false] at hmarks
  rcases hmarks with rfl | rfl
  · refine ⟨by decide,fun m hm hkind => ?_⟩
    rw [List.mem_singleton.mp hm] at hkind
    cases hkind
  · exact ⟨List.nodup_nil,nofun⟩

theorem separated_roundTrip :
    (∃ runs, Delta runs (written separatedNodes)) ∧ ∀ runs, Delta runs (written separatedNodes) →
      (RoundTrip runs separatedNodes ↔ Separated separatedNodes) := by
  refine roundTrip_iff fun n hn => ?_
  simp only [separatedNodes,List.mem_cons,List.not_mem_nil,or_false] at hn
  rcases hn with rfl | rfl | rfl
  · exact plain_attributed _ (by simp)
  · exact ⟨_,rfl⟩
  · exact plain_attributed _ (by simp)

/-- The plain text behind the bold one is read back bold. -/
theorem bold_carried_over : ¬∀ nodes runs, (∀ n ∈ nodes, WellFormed n) →
    Delta runs (written nodes) → RoundTrip runs nodes := by
  intro hall
  let nodes : List InlineNode := [.text "a" [plainMark .bold],.text "b" []]
  let bold : JsonObj := [("bold",.bool true)]
  have hround := hall nodes [(.text "ab",some bold)] ?_ ⟨?_,?_,?_⟩
  · cases hround.1 with
    | cons _ hrest =>
      cases hrest with
      | cons hb _ =>
        cases hb with
        | char _ hperm => exact absurd hperm.length_eq (by decide)
  · intro n hn
    simp only [nodes,List.mem_cons,List.not_mem_nil,or_false] at hn
    rcases hn with rfl | rfl
    · exact plain_attributed _ (by simp)
    · exact plain_attributed _ (by simp)
  · exact sameUnits_refl _
  · intro s f hmem
    cases List.mem_singleton.mp hmem
    decide
  · exact List.isChain_singleton _

end BlockDocs.InlineRoundTrip
