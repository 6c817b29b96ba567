import BlockDocs.InlineNodes

/-!
# Two readers of one text

The consumer and the browser decode the same runs of a text, each with code of its own.
The nodes that the consumer stores are those that the browser reads exactly where no run
is an embed and no attribute is one that only one of them knows or takes for set.
-/

set_option autoImplicit false

namespace BlockDocs.TwoReaders
open BlockDocs.InsertionMap BlockDocs.Wire BlockDocs.Crdt BlockDocs.InlineNodes

def jsOff : Json → Bool
  | .null => true
  | .bool b => !b
  | _ => false

/-- Neither reader finds an annotation: the browser wants an object under its name, the
consumer something truthy under its name or that of its attribute. -/
structure Unannotated (type : MarkType) (key : String) (attrs : JsonObj) : Prop where
  read : ∀ v, lookup type.name attrs = some v → isObject v = false
  stored : ∀ v, eitherOf attrs type.name key = some v → truthy v = false

/-- Python and JavaScript take the same simple marks for set. -/
structure AgreedFormat (attrs : JsonObj) : Prop where
  simple : ∀ t : MarkType, t.simple = true → ∀ v, lookup t.name attrs = some v →
    (truthy v = true ↔ jsOff v = false)
  link : Unannotated .link "href" attrs
  comment : Unannotated .comment "commentId" attrs

def Agreed : Chunk × Option JsonObj → Prop
  | (.text _,attributes) => AgreedFormat (attributes.getD [])
  | (.embed _,_) => False

def Mapped (run : Chunk × Option JsonObj) : Prop := ((run.2.getD []).map Prod.fst).Nodup

variable {attrs : JsonObj} {t : MarkType} {m : Mark}

/-! ## What the browser reads -/

inductive Stands (k : String) (v : Json) : Mark → Prop where
  | simple {t : MarkType} (ht : t.simple = true) (hk : k = t.name) : Stands k v (plainMark t)
  | annotated {t : MarkType} (ht : t.simple = false) (hk : k = t.name)
      (hv : isObject v = true) : Stands k v ⟨t,some v⟩

theorem markOf_on {k : String} {v : Json} (h : jsOff v = false) : markOf k v =
    if k = "link" ∧ isObject v then some ⟨.link,some v⟩
    else if k = "comment" ∧ isObject v then some ⟨.comment,some v⟩
    else if k = "bold" then some ⟨.bold,none⟩
    else if k = "italic" then some ⟨.italic,none⟩
    else if k = "strike" then some ⟨.strike,none⟩
    else if k = "code" then some ⟨.code,none⟩
    else none := by
  cases v with
  | null => cases h
  | bool b =>
    cases b with
    | false => cases h
    | true => rfl
  | _ => rfl

theorem markOf_iff {k : String} {v : Json} :
    markOf k v = some m ↔ jsOff v = false ∧ Stands k v m := by
  cases hoff : jsOff v with
  | true =>
    have hnone : markOf k v = none := by
      cases v with
      | null => rfl
      | bool b =>
        cases b with
        | false => rfl
        | true => cases hoff
      | _ => cases hoff
    simp [hnone]
  | false =>
    rw [markOf_on hoff]
    constructor
    · intro h
      refine ⟨rfl,?_⟩
      split_ifs at h with h1 h2 h3 h4 h5 h6
      · cases h
        exact .annotated rfl h1.1 h1.2
      · cases h
        exact .annotated rfl h2.1 h2.2
      · cases h
        exact .simple (t := .bold) rfl h3
      · cases h
        exact .simple (t := .italic) rfl h4
      · cases h
        exact .simple (t := .strike) rfl h5
      · cases h
        exact .simple (t := .code) rfl h6
    · rintro ⟨-,h⟩
      cases h with
      | @simple t ht hk =>
        subst hk
        cases t <;> first | rfl | cases ht
      | @annotated t ht hk hv =>
        subst hk
        cases t with
        | link => exact if_pos ⟨rfl,hv⟩
        | comment =>
          rw [if_neg (fun h => absurd h.1 (by decide))]
          exact if_pos ⟨rfl,hv⟩
        | _ => cases ht

theorem mem_read (hkeyed : (attrs.map Prod.fst).Nodup) : m ∈ formatToMarks (some attrs) ↔
    ∃ k v, lookup k attrs = some v ∧ jsOff v = false ∧ Stands k v m := by
  rw [formatToMarks,Option.getD_some,List.mem_filterMap]
  constructor
  · rintro ⟨⟨k,v⟩,hmem,hmark⟩
    exact ⟨k,v,lookup_of_mem hkeyed hmem,markOf_iff.mp hmark⟩
  · rintro ⟨k,v,hlookup,hmark⟩
    exact ⟨(k,v),mem_of_lookup hlookup,markOf_iff.mpr hmark⟩

theorem stands_name {k : String} {v : Json} (h : Stands k v m) : m.type.name = k := by
  cases h with
  | simple ht hk => exact hk.symm
  | annotated ht hk hv => exact hk.symm

/-- The types of the marks are keys of attributes. -/
theorem read_keys (attrs : JsonObj) :
    ((formatToMarks (some attrs)).map (fun m => m.type.name)).Sublist (attrs.map Prod.fst) := by
  rw [formatToMarks,Option.getD_some]
  induction attrs with
  | nil => exact .slnil
  | cons e attrs ih =>
    rw [List.filterMap_cons]
    cases hmark : markOf e.1 e.2 with
    | none => exact ih.cons e.1
    | some m =>
      have hname : m.type.name = e.1 := stands_name (markOf_iff.mp hmark).2
      rw [List.map_cons,List.map_cons,hname]
      exact ih.cons_cons e.1

theorem read_nodup (hkeyed : (attrs.map Prod.fst).Nodup) :
    (formatToMarks (some attrs)).Nodup := List.Nodup.of_map _ ((read_keys attrs).nodup hkeyed)

theorem read_plain (hkeyed : (attrs.map Prod.fst).Nodup) (ht : t.simple = true) :
    plainMark t ∈ formatToMarks (some attrs) ↔
      ∃ v, lookup t.name attrs = some v ∧ jsOff v = false := by
  rw [mem_read hkeyed]
  constructor
  · rintro ⟨k,v,hlookup,hoff,hstands⟩
    rw [← stands_name hstands] at hlookup
    exact ⟨v,hlookup,hoff⟩
  · rintro ⟨v,hlookup,hoff⟩
    exact ⟨_,v,hlookup,hoff,.simple ht rfl⟩

/-! ## What the consumer stores -/

def stored (attrs : JsonObj) : List MarkType :=
  simpleTypes.filter (fun t => (lookup t.name attrs).any truthy)

def annotated (type : MarkType) (key : String) (attrs : JsonObj) : List Mark :=
  match eitherOf attrs type.name key with
  | some v => if truthy v then [⟨type,some (.obj [(key,v)])⟩] else []
  | none => []

def storedMarks (attrs : JsonObj) : List Mark :=
  (stored attrs).map plainMark++annotated .link "href" attrs++
    annotated .comment "commentId" attrs

theorem annotated_json (type : MarkType) (key : String) (attrs : JsonObj) :
    (annotated type key attrs).map Mark.json =
      markWith type.name key (eitherOf attrs type.name key) := by
  rw [annotated]
  cases eitherOf attrs type.name key with
  | none => rfl
  | some v =>
    rw [markWith]
    dsimp only
    split <;> rfl

theorem marksOf_eq (attrs : JsonObj) : marksOf attrs = (storedMarks attrs).map Mark.json := by
  have hnames : simpleMarks = simpleTypes.map MarkType.name := rfl
  rw [storedMarks,List.map_append,List.map_append,annotated_json,annotated_json,marksOf,hnames,
    List.filter_map,List.map_map,stored,List.map_map]
  rfl

theorem stored_mem : t ∈ stored attrs ↔
    t.simple = true ∧ ∃ v, lookup t.name attrs = some v ∧ truthy v = true := by
  rw [stored,List.mem_filter,mem_simpleTypes,Option.any_eq_true]

theorem annotated_mem {type : MarkType} {key : String} : m ∈ annotated type key attrs ↔
    ∃ v, eitherOf attrs type.name key = some v ∧ truthy v = true ∧
      m = ⟨type,some (.obj [(key,v)])⟩ := by
  rw [annotated]
  cases eitherOf attrs type.name key with
  | none => simp
  | some v => by_cases h : truthy v = true <;> simp [h]

theorem annotated_nil {type : MarkType} {key : String} (h : Unannotated type key attrs) :
    annotated type key attrs = [] := by
  rw [List.eq_nil_iff_forall_not_mem]
  intro m hm
  obtain ⟨v,heither,hv,_⟩ := annotated_mem.mp hm
  rw [h.stored v heither] at hv
  cases hv

theorem plain_stored (ht : t.simple = true) : plainMark t ∈ storedMarks attrs ↔
    ∃ v, lookup t.name attrs = some v ∧ truthy v = true := by
  simp only [storedMarks,List.mem_append,annotated_mem]
  constructor
  · rintro ((hm | ⟨v,_,_,heq⟩) | ⟨v,_,_,heq⟩)
    · obtain ⟨u,hu,heq⟩ := List.mem_map.mp hm
      cases heq
      exact (stored_mem.mp hu).2
    · cases heq
    · cases heq
  · intro h
    exact Or.inl (Or.inl (List.mem_map_of_mem (stored_mem.mpr ⟨ht,h⟩)))

/-! ## One run -/

theorem plain_of_agreed (hkeyed : (attrs.map Prod.fst).Nodup) (h : AgreedFormat attrs)
    (hm : m ∈ formatToMarks (some attrs)) : ∃ t : MarkType, t.simple = true ∧ m = plainMark t := by
  obtain ⟨k,v,hlookup,_,hstands⟩ := (mem_read hkeyed).mp hm
  cases hstands with
  | simple ht hk => exact ⟨_,ht,rfl⟩
  | @annotated t ht hk hv =>
    subst hk
    cases t with
    | link => rw [h.link.read v hlookup] at hv; cases hv
    | comment => rw [h.comment.read v hlookup] at hv; cases hv
    | _ => cases ht

/-- The same marks, in an order of its own. -/
theorem stored_perm (hkeyed : (attrs.map Prod.fst).Nodup) (h : AgreedFormat attrs) :
    ((stored attrs).map plainMark).Perm (formatToMarks (some attrs)) := by
  have hinj : Function.Injective plainMark := fun _ _ heq => congrArg Mark.type heq
  have hnodup : ((stored attrs).map plainMark).Nodup :=
    List.Nodup.map hinj (List.Nodup.filter _ (by decide))
  refine (List.perm_ext_iff_of_nodup hnodup (read_nodup hkeyed)).mpr fun m => ?_
  constructor
  · intro hm
    obtain ⟨t,ht,rfl⟩ := List.mem_map.mp hm
    obtain ⟨hsimple,v,hlookup,hv⟩ := stored_mem.mp ht
    exact (read_plain hkeyed hsimple).mpr ⟨v,hlookup,(h.simple t hsimple v hlookup).mp hv⟩
  · intro hm
    obtain ⟨t,ht,rfl⟩ := plain_of_agreed hkeyed h hm
    obtain ⟨v,hlookup,hoff⟩ := (read_plain hkeyed ht).mp hm
    exact List.mem_map_of_mem (stored_mem.mpr ⟨ht,v,hlookup,(h.simple t ht v hlookup).mpr hoff⟩)

/-- No value holds itself. -/
theorem not_within (key : String) (v : Json) : v ≠ .obj [(key,v)] := by
  intro h
  have hsize := congrArg sizeOf h
  simp at hsize
  omega

/-- What both readers have for an annotation is never the same. -/
theorem unannotated_of {type : MarkType} {key : String} (hkeyed : (attrs.map Prod.fst).Nodup)
    (hannotated : type.simple = false)
    (hstored : ∀ x, ⟨type,some x⟩ ∈ formatToMarks (some attrs) ↔
      (⟨type,some x⟩ : Mark) ∈ annotated type key attrs) : Unannotated type key attrs := by
  have hread : ∀ v, ⟨type,some v⟩ ∈ formatToMarks (some attrs) ↔
      lookup type.name attrs = some v ∧ isObject v = true := by
    intro v
    rw [mem_read hkeyed]
    constructor
    · rintro ⟨k,w,hlookup,_,hstands⟩
      cases hstands with
      | annotated ht hk hw => exact ⟨hk ▸ hlookup,hw⟩
    · rintro ⟨hlookup,hv⟩
      refine ⟨_,v,hlookup,?_,.annotated hannotated rfl hv⟩
      cases v <;> first | rfl | cases hv
  have hnone : ∀ v, eitherOf attrs type.name key = some v → truthy v = false := by
    intro v heither
    by_contra hv
    rw [Bool.not_eq_false] at hv
    obtain ⟨hlookup,_⟩ := (hread _).mp ((hstored _).mpr (annotated_mem.mpr ⟨v,heither,hv,rfl⟩))
    rw [eitherOf,hlookup] at heither
    exact not_within key v (Option.some.inj heither).symm
  refine ⟨fun v hlookup => ?_,hnone⟩
  by_contra hv
  rw [Bool.not_eq_false] at hv
  obtain ⟨w,heither,hw,_⟩ := annotated_mem.mp ((hstored v).mp ((hread v).mpr ⟨hlookup,hv⟩))
  rw [hnone w heither] at hw
  cases hw

theorem agreed_iff_perm (hkeyed : (attrs.map Prod.fst).Nodup) :
    (storedMarks attrs).Perm (formatToMarks (some attrs)) ↔ AgreedFormat attrs := by
  constructor
  · intro hperm
    have hmem : ∀ m, m ∈ storedMarks attrs ↔ m ∈ formatToMarks (some attrs) :=
      fun m => hperm.mem_iff
    have hothers : ∀ x, (⟨.link,some x⟩ ∈ storedMarks attrs ↔
        (⟨.link,some x⟩ : Mark) ∈ annotated .link "href" attrs) ∧
        (⟨.comment,some x⟩ ∈ storedMarks attrs ↔
          (⟨.comment,some x⟩ : Mark) ∈ annotated .comment "commentId" attrs) := by
      intro x
      simp [storedMarks,annotated_mem,plainMark]
    refine ⟨fun t ht v hlookup => ?_,?_,?_⟩
    · have hplain := hmem (plainMark t)
      rw [plain_stored ht,read_plain hkeyed ht] at hplain
      simpa [hlookup] using hplain
    · exact unannotated_of hkeyed rfl (fun x => (hmem _).symm.trans (hothers x).1)
    · exact unannotated_of hkeyed rfl (fun x => (hmem _).symm.trans (hothers x).2)
  · intro h
    rw [storedMarks,annotated_nil h.link,annotated_nil h.comment,List.append_nil,List.append_nil]
    exact stored_perm hkeyed h

theorem json_inj : Function.Injective Mark.json := by
  rintro ⟨type,attrs⟩ ⟨type',attrs'⟩ h
  cases attrs <;> cases attrs' <;> simp [Mark.json] at h
  · rw [name_inj h]
  · rw [name_inj h.1,h.2]

theorem textNode_inj {s : String} {marks marks' : List Json}
    (h : textNode s marks = textNode s marks') : marks = marks' := by
  cases marks <;> cases marks' <;> simp_all [textNode]

theorem text_same_iff (s : String) (attributes : Option JsonObj)
    (hkeyed : ((attributes.getD []).map Prod.fst).Nodup) :
    SameNode (inlineNode (.text s,attributes)) (.text s (formatToMarks attributes)) ↔
      AgreedFormat (attributes.getD []) := by
  have hread : formatToMarks attributes = formatToMarks (some (attributes.getD [])) := rfl
  have hnode : inlineNode (.text s,attributes) =
      (InlineNode.text s (storedMarks (attributes.getD []))).json :=
    congrArg (textNode s) (marksOf_eq _)
  rw [← agreed_iff_perm hkeyed,hread,hnode]
  constructor
  · intro h
    generalize hjson : (InlineNode.text s (storedMarks (attributes.getD []))).json = json at h
    cases h with
    | text s hperm => rwa [json_inj.list_map (textNode_inj hjson)]
  · exact fun hperm => .text s hperm

theorem embed_differs (value : Json) (attributes : Option JsonObj) (n : InlineNode) :
    ¬SameNode (inlineNode (.embed value,attributes)) n := by
  intro h
  generalize hjson : inlineNode (.embed value,attributes) = json at h
  cases h with
  | text s hperm => simp [inlineNode,InlineNode.json,textNode] at hjson
  | mention attrs => simp [inlineNode,InlineNode.json] at hjson

/-! ## Whole texts -/

/-- The consumer and the browser have the same nodes of a text, up to the order of marks,
exactly where they agree on each of its runs. -/
theorem readers_agree_iff (delta : List (Chunk × Option JsonObj))
    (hmapped : ∀ run ∈ delta, Mapped run) :
    List.Forall₂ SameNode (diffToInlineNodes delta) (readInlineNodes delta) ↔
      ∀ run ∈ delta, Agreed run := by
  induction delta with
  | nil => exact iff_of_true .nil (fun run hrun => absurd hrun List.not_mem_nil)
  | cons run delta ih =>
    rw [List.forall_mem_cons,← ih (fun r hr => hmapped r (List.mem_cons_of_mem _ hr))]
    obtain ⟨chunk,attributes⟩ := run
    cases chunk with
    | text s =>
      have hsame := text_same_iff s attributes (hmapped _ List.mem_cons_self)
      rw [Agreed,← hsame]
      exact List.forall₂_cons
    | embed value =>
      refine iff_of_false (fun h => ?_) (fun h => h.1)
      cases hread : readInlineNodes ((.embed value,attributes)::delta) with
      | nil => rw [hread] at h; cases h
      | cons n nodes =>
        rw [hread] at h
        exact embed_differs value attributes n (List.forall₂_cons.mp h).1

/-- Letters in bold. -/
theorem bold_agreed : List.Forall₂ SameNode
      (diffToInlineNodes [(.text "a",some [("bold",.bool true)])])
      (readInlineNodes [(.text "a",some [("bold",.bool true)])]) ↔
    ∀ run ∈ [((.text "a",some [("bold",.bool true)]) : Chunk × Option JsonObj)], Agreed run :=
  readers_agree_iff _ (fun run hrun => by
    rw [List.mem_singleton.mp hrun]
    exact List.nodup_singleton "bold")

end BlockDocs.TwoReaders
