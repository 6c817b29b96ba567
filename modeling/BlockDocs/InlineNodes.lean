import BlockDocs.Crdt

/-!
# Inline nodes in two languages

The browser turns marks into the format of a run of text and mentions into
embeds, and reads both back. The consumer reads the same runs with a decoder
of its own: it knows the four simple marks by name, wraps what it finds under
`link` and `comment`, and passes embeds on with a tag.
-/

set_option autoImplicit false

namespace BlockDocs.InlineNodes
open BlockDocs.InsertionMap BlockDocs.Wire BlockDocs.Crdt

inductive MarkType where
  | bold
  | italic
  | strike
  | code
  | link
  | comment
  deriving DecidableEq, Repr

def MarkType.name : MarkType → String
  | .bold => "bold"
  | .italic => "italic"
  | .strike => "strike"
  | .code => "code"
  | .link => "link"
  | .comment => "comment"

def MarkType.simple : MarkType → Bool
  | .link => false
  | .comment => false
  | _ => true

structure Mark where
  type : MarkType
  attrs : Option Json := none

/-- A node without marks has no `marks` key. -/
inductive InlineNode where
  | text (text : String) (marks : List Mark)
  | mention (attrs : Json)

def Mark.json (m : Mark) : Json :=
  .obj ([("type",.str m.type.name)]++m.attrs.elim [] (fun attrs => [("attrs",attrs)]))

def textNode (text : String) (marks : List Json) : Json :=
  .obj ([("type",.str "text"),("text",.str text)]++
    if marks.isEmpty then [] else [("marks",.arr marks)])

def InlineNode.json : InlineNode → Json
  | .text s marks => textNode s (marks.map Mark.json)
  | .mention attrs => .obj [("type",.str "mention"),("attrs",attrs)]

/-! ## The browser -/

def formatValue (m : Mark) : Json :=
  if m.type.simple then .bool true
  else match m.attrs with
    | none => .bool true
    | some .null => .bool true
    | some attrs => attrs

def marksToFormat (marks : List Mark) : Option JsonObj :=
  if marks.isEmpty then none
  else some (marks.foldl (fun fmt m => put m.type.name (formatValue m) fmt) [])

def isObject : Json → Bool
  | .arr _ => true
  | .obj _ => true
  | _ => false

/-- The mark of one format attribute, unless it is off or of no known shape. -/
def markOf (key : String) (val : Json) : Option Mark :=
  match val with
  | .null => none
  | .bool false => none
  | val =>
    if key = "link" ∧ isObject val then some ⟨.link,some val⟩
    else if key = "comment" ∧ isObject val then some ⟨.comment,some val⟩
    else if key = "bold" then some ⟨.bold,none⟩
    else if key = "italic" then some ⟨.italic,none⟩
    else if key = "strike" then some ⟨.strike,none⟩
    else if key = "code" then some ⟨.code,none⟩
    else none

def formatToMarks (format : Option JsonObj) : List Mark :=
  (format.getD []).filterMap (fun e => markOf e.1 e.2)

structure Insertion where
  index : ℕ
  chunk : Chunk
  format : Option JsonObj

def utf16Length (s : String) : ℕ :=
  (s.toList.map (fun c => if c.toNat < 0x10000 then 1 else 2)).sum

def insertionsFrom (cursor : ℕ) : List InlineNode → List Insertion
  | [] => []
  | .text s marks::nodes =>
    ⟨cursor,.text s,marksToFormat marks⟩::insertionsFrom (cursor+utf16Length s) nodes
  | .mention attrs::nodes =>
    ⟨cursor,.embed (.obj [("mention",attrs)]),none⟩::insertionsFrom (cursor+1) nodes

def applyInlineNodes (nodes : List InlineNode) : List Insertion := insertionsFrom 0 nodes

def jsTruthy : Json → Bool
  | .null => false
  | .bool b => b
  | .num n => n ≠ 0
  | .str s => s ≠ ""
  | _ => true

def readRun : Chunk × Option JsonObj → Option InlineNode
  | (.text s, attributes) => some (.text s (formatToMarks attributes))
  | (.embed (.obj fields), _) =>
    match lookup "mention" fields with
    | some m => if jsTruthy m then some (.mention m) else none
    | none => none
  | (.embed _, _) => none

def readInlineNodes (delta : List (Chunk × Option JsonObj)) : List InlineNode :=
  delta.filterMap readRun

/-! ## Runs of a text -/

/-- Attributes are a mapping: their order does not count. -/
def SameFormat : Option JsonObj → Option JsonObj → Prop := Option.Rel List.Perm

/-- A run of a text holds characters in the format of some insertion, which an
insertion without a format may have taken over, or it is an embed. -/
inductive Stored (calls : List Insertion) : Chunk × Option JsonObj → Prop where
  | text {call : Insertion} {t : String} (hcall : call ∈ calls) (htext : call.chunk = .text t)
      (s : String) {attributes : Option JsonObj} (h : SameFormat attributes call.format) :
      Stored calls (.text s,attributes)
  | embed {call : Insertion} {value : Json} (hcall : call ∈ calls)
      (hembed : call.chunk = .embed value) (attributes : Option JsonObj) :
      Stored calls (.embed value,attributes)

/-- What the node types say: a link has an `href`, a comment a `commentId`, a
mention the id and the label of a user. -/
def Mark.Typed (m : Mark) : Prop :=
  match m.type with
  | .link => ∃ href, m.attrs = some (.obj [("href",.str href)])
  | .comment => ∃ commentId, m.attrs = some (.obj [("commentId",.str commentId)])
  | _ => True

def InlineNode.Typed : InlineNode → Prop
  | .text _ marks => ∀ m ∈ marks, m.Typed
  | .mention attrs => ∃ userId label,
      attrs = .obj [("userId",.num userId),("label",.str label)]

/-- The attributes of a link and of a comment do not count. -/
structure SameMark (m' m : Mark) : Prop where
  type : m'.type = m.type
  simple : m.type.simple = true → m' = m

def UpTo {α : Type} (R : α → α → Prop) (xs ys : List α) : Prop :=
  ∃ zs, xs.Perm zs ∧ List.Forall₂ R zs ys

/-- How the consumer's node relates to the browser's. -/
inductive Extracted : Json → InlineNode → Prop where
  | text (s : String) {marks marks' : List Mark} (h : UpTo SameMark marks' marks) :
      Extracted (InlineNode.text s marks').json (.text s marks)
  | mention (attrs : Json) : Extracted
      (.obj [("type",.str "embed"),("value",.obj [("mention",attrs)])]) (.mention attrs)

/-! ## Formats -/

theorem name_inj {t u : MarkType} (h : t.name = u.name) : t = u := by
  cases t <;> cases u <;> first | rfl | exact absurd h (by decide)

theorem mem_put {k : String} {v : Json} {es : JsonObj} {e : String × Json}
    (h : e ∈ put k v es) : e = (k,v) ∨ e ∈ es := by
  unfold put at h
  split at h
  · obtain ⟨f,hf,rfl⟩ := List.mem_map.mp h
    split
    · exact Or.inl rfl
    · exact Or.inr hf
  · rcases List.mem_append.mp h with h | h
    · exact Or.inr h
    · exact Or.inl (List.mem_singleton.mp h)

structure Formed (marks : List Mark) (format : JsonObj) : Prop where
  keyed : (format.map Prod.fst).Nodup
  entry : ∀ e ∈ format, ∃ m ∈ marks, e = (m.type.name,formatValue m)
  named : ∀ m ∈ marks, m.type.name ∈ format.map Prod.fst

theorem formed_put {marks : List Mark} {format : JsonObj} (h : Formed marks format) (m : Mark) :
    Formed (marks++[m]) (put m.type.name (formatValue m) format) where
  keyed := put_nodup _ _ h.keyed
  entry := by
    intro e he
    rcases mem_put he with rfl | he
    · exact ⟨m,by simp,rfl⟩
    · obtain ⟨m',hm',heq⟩ := h.entry e he
      exact ⟨m',List.mem_append_left _ hm',heq⟩
  named := by
    intro m' hm'
    rw [keys_put]
    rcases List.mem_append.mp hm' with hm' | hm'
    · have hold := h.named m' hm'
      split
      · exact hold
      · exact List.mem_append_left _ hold
    · rw [List.mem_singleton.mp hm']
      split
      · assumption
      · simp

theorem formed_marks (marks : List Mark) : ∀ {before : List Mark} {format : JsonObj},
    Formed before format → Formed (before++marks)
      (marks.foldl (fun fmt m => put m.type.name (formatValue m) fmt) format) := by
  induction marks with
  | nil =>
    intro before format h
    rw [List.append_nil]
    exact h
  | cons m marks ih =>
    intro before format h
    have hone := ih (formed_put h m)
    rwa [List.append_assoc] at hone

theorem formed_perm {marks : List Mark} {format format' : JsonObj} (h : Formed marks format)
    (hperm : format'.Perm format) : Formed marks format' where
  keyed := (hperm.map Prod.fst).nodup_iff.mpr h.keyed
  entry := fun e he => h.entry e (hperm.mem_iff.mp he)
  named := fun m hm => (hperm.map Prod.fst).mem_iff.mpr (h.named m hm)

theorem formed_run {marks : List Mark} {attributes : Option JsonObj}
    (h : SameFormat attributes (marksToFormat marks)) : Formed marks (attributes.getD []) := by
  have hempty : Formed [] ([] : JsonObj) := ⟨List.nodup_nil,nofun,nofun⟩
  unfold marksToFormat at h
  split at h
  · next hnone =>
    cases h
    rw [List.isEmpty_iff.mp hnone]
    exact hempty
  · cases h with
    | some hperm => exact formed_perm (formed_marks marks hempty) hperm

/-! ## Marks of a run -/

def plainMark (t : MarkType) : Mark := ⟨t,none⟩

def Valued (t : MarkType) (v : Json) : Prop :=
  if t.simple then v = .bool true else ∃ k x, v = .obj [(k,x)]

def valueEntry (p : MarkType × Json) : String × Json := (p.1.name,p.2)

theorem valued_mark {m : Mark} (h : m.Typed) : Valued m.type (formatValue m) := by
  obtain ⟨type,attrs⟩ := m
  cases type with
  | link =>
    obtain ⟨href,hattrs⟩ := h
    cases hattrs
    exact ⟨_,_,rfl⟩
  | comment =>
    obtain ⟨commentId,hattrs⟩ := h
    cases hattrs
    exact ⟨_,_,rfl⟩
  | _ => rfl

theorem formed_values {marks : List Mark} {format : JsonObj} (h : Formed marks format)
    (htyped : ∀ m ∈ marks, m.Typed) : ∃ ps : List (MarkType × Json),
      (ps.map Prod.fst).Nodup ∧ (∀ p ∈ ps, Valued p.1 p.2) ∧ format = ps.map valueEntry := by
  have hentries : ∀ e ∈ format, ∃ p : MarkType × Json, Valued p.1 p.2 ∧ e = valueEntry p := by
    intro e he
    obtain ⟨m,hm,rfl⟩ := h.entry e he
    exact ⟨(m.type,formatValue m),valued_mark (htyped m hm),rfl⟩
  have hkeyed := h.keyed
  clear h
  induction format with
  | nil => exact ⟨[],List.nodup_nil,nofun,rfl⟩
  | cons e format ih =>
    obtain ⟨hnew,hrest⟩ := List.nodup_cons.mp hkeyed
    obtain ⟨p,hp,rfl⟩ := hentries _ List.mem_cons_self
    obtain ⟨ps,hnodup,hall,rfl⟩ := ih (fun e he => hentries e (List.mem_cons_of_mem _ he)) hrest
    refine ⟨p::ps,List.nodup_cons.mpr ⟨fun hmem => hnew ?_,hnodup⟩,?_,rfl⟩
    · obtain ⟨q,hq,hname⟩ := List.mem_map.mp hmem
      exact List.mem_map.mpr ⟨valueEntry q,List.mem_map_of_mem hq,congrArg MarkType.name hname⟩
    · exact List.forall_mem_cons.mpr ⟨hp,hall⟩

def readMark (p : MarkType × Json) : Mark := ⟨p.1,if p.1.simple then none else some p.2⟩

theorem markOf_valued {p : MarkType × Json} (h : Valued p.1 p.2) :
    markOf p.1.name p.2 = some (readMark p) := by
  obtain ⟨t,v⟩ := p
  cases t with
  | link =>
    obtain ⟨k,x,rfl⟩ := h
    rfl
  | comment =>
    obtain ⟨k,x,rfl⟩ := h
    rfl
  | _ =>
    cases h
    rfl

theorem formatToMarks_values {ps : List (MarkType × Json)} (h : ∀ p ∈ ps, Valued p.1 p.2) :
    formatToMarks (some (ps.map valueEntry)) = ps.map readMark := by
  show (ps.map valueEntry).filterMap (fun e => markOf e.1 e.2) = _
  induction ps with
  | nil => rfl
  | cons p ps ih =>
    have hone : markOf (valueEntry p).1 (valueEntry p).2 = some (readMark p) :=
      markOf_valued (h p List.mem_cons_self)
    rw [List.map_cons,List.filterMap_cons,hone,List.map_cons,
      ih (fun p hp => h p (List.mem_cons_of_mem _ hp))]

theorem lookup_value {ps : List (MarkType × Json)} (hnodup : (ps.map Prod.fst).Nodup)
    {p : MarkType × Json} (hp : p ∈ ps) : lookup p.1.name (ps.map valueEntry) = some p.2 := by
  induction ps with
  | nil => cases hp
  | cons q ps ih =>
    obtain ⟨hnew,hrest⟩ := List.nodup_cons.mp hnodup
    rw [List.map_cons,lookup_cons]
    rcases List.mem_cons.mp hp with rfl | hp
    · exact if_pos rfl
    · have hne : (valueEntry q).1 ≠ p.1.name := by
        intro hname
        exact hnew (name_inj hname ▸ List.mem_map_of_mem hp)
      rw [if_neg hne]
      exact ih hrest hp

theorem lookup_absent {ps : List (MarkType × Json)} {k : String}
    (h : ∀ p ∈ ps, p.1.name ≠ k) : lookup k (ps.map valueEntry) = none := by
  induction ps with
  | nil => rfl
  | cons p ps ih =>
    have hne : (valueEntry p).1 ≠ k := h p List.mem_cons_self
    rw [List.map_cons,lookup_cons,if_neg hne]
    exact ih (fun q hq => h q (List.mem_cons_of_mem _ hq))

theorem truthy_value {t : MarkType} {v : Json} (h : Valued t v) : truthy v = true := by
  cases t with
  | link =>
    obtain ⟨k,x,rfl⟩ := h
    rfl
  | comment =>
    obtain ⟨k,x,rfl⟩ := h
    rfl
  | _ =>
    cases h
    rfl

def simpleTypes : List MarkType := [.bold,.italic,.strike,.code]

theorem mem_simpleTypes {t : MarkType} : t ∈ simpleTypes ↔ t.simple = true := by
  cases t <;> decide

/-- The mark that the consumer makes of a value: it wraps those of the last two types. -/
def storedMark (t : MarkType) (v : Json) : Mark :=
  match t with
  | .link => ⟨.link,some (.obj [("href",v)])⟩
  | .comment => ⟨.comment,some (.obj [("commentId",v)])⟩
  | t => plainMark t

def markTypes : List MarkType := simpleTypes++[.link,.comment]

def storedUnder (format : JsonObj) (t : MarkType) : Option Mark :=
  (lookup t.name format).map (storedMark t)

section Stored
variable {format : JsonObj}

theorem markWith_stored (t : MarkType) (key : String)
    (htruthy : ∀ k v, lookup k format = some v → truthy v = true)
    (hkey : lookup key format = none)
    (hmark : ∀ v, (storedMark t v).json = .obj [("type",.str t.name),("attrs",.obj [(key,v)])]) :
    markWith t.name key (eitherOf format t.name key) =
      ((storedUnder format t).toList).map Mark.json := by
  rw [eitherOf,storedUnder]
  cases hv : lookup t.name format with
  | none =>
    simp only [hkey]
    rfl
  | some v =>
    have hon := htruthy _ _ hv
    simp only [hon,if_true,markWith,Option.map_some,Option.toList_some,List.map_cons,List.map_nil,
      hmark]

theorem simple_stored (htruthy : ∀ k v, lookup k format = some v → truthy v = true)
    {ts : List MarkType} (hsimple : ∀ t ∈ ts, t.simple = true) :
    ((ts.map MarkType.name).filter (fun name => (lookup name format).any truthy)).map
        (fun name => Json.obj [("type",.str name)]) =
      (ts.filterMap (storedUnder format)).map Mark.json := by
  induction ts with
  | nil => rfl
  | cons t ts ih =>
    have hrest := ih (fun u hu => hsimple u (List.mem_cons_of_mem _ hu))
    cases hv : lookup t.name format with
    | none =>
      have hnone : storedUnder format t = none := by rw [storedUnder,hv]; rfl
      simpa [hv,hnone] using hrest
    | some v =>
      have hone : storedUnder format t = some (plainMark t) := by
        rw [storedUnder,hv,Option.map_some]
        have ht := hsimple t List.mem_cons_self
        cases t <;> first | rfl | cases ht
      have hon := htruthy _ _ hv
      simpa [hv,hone,hon,Mark.json,plainMark] using hrest

theorem marksOf_stored (htruthy : ∀ k v, lookup k format = some v → truthy v = true)
    (hhref : lookup "href" format = none) (hcomment : lookup "commentId" format = none) :
    marksOf format = (markTypes.filterMap (storedUnder format)).map Mark.json := by
  have hsimple := simple_stored htruthy (fun t ht => mem_simpleTypes.mp ht)
  have hlink : markWith "link" "href" (eitherOf format "link" "href") =
      ((storedUnder format .link).toList).map Mark.json :=
    markWith_stored .link "href" htruthy hhref (fun _ => rfl)
  have hnote : markWith "comment" "commentId" (eitherOf format "comment" "commentId") =
      ((storedUnder format .comment).toList).map Mark.json :=
    markWith_stored .comment "commentId" htruthy hcomment (fun _ => rfl)
  have hnames : simpleMarks = simpleTypes.map MarkType.name := rfl
  have hlast : [MarkType.link,.comment].filterMap (storedUnder format) =
      (storedUnder format .link).toList++(storedUnder format .comment).toList := by
    cases hl : storedUnder format .link <;> cases hc : storedUnder format .comment <;>
      simp [hl,hc]
  rw [marksOf,hlink,hnote,hnames,hsimple,markTypes,List.filterMap_append,hlast,List.map_append,
    List.map_append,List.append_assoc]

end Stored

theorem storedUnder_value {ps : List (MarkType × Json)} (hnodup : (ps.map Prod.fst).Nodup)
    {p : MarkType × Json} (hp : p ∈ ps) :
    storedUnder (ps.map valueEntry) p.1 = some (storedMark p.1 p.2) := by
  rw [storedUnder,lookup_value hnodup hp,Option.map_some]

/-- The consumer finds the marks of all types that the format has, in an order of its own. -/
theorem stored_perm {ps : List (MarkType × Json)} (hnodup : (ps.map Prod.fst).Nodup) :
    (markTypes.filterMap (storedUnder (ps.map valueEntry))).Perm
      (ps.map (fun p => storedMark p.1 p.2)) := by
  have hfound : markTypes.filterMap (storedUnder (ps.map valueEntry)) =
      (markTypes.filter (fun t => t ∈ ps.map Prod.fst)).filterMap
        (storedUnder (ps.map valueEntry)) := by
    rw [List.filterMap_filter]
    refine List.filterMap_congr (fun t _ => ?_)
    split
    · rfl
    · next hnot =>
      rw [storedUnder,lookup_absent]
      · rfl
      · intro p hp hname
        exact hnot (decide_eq_true (name_inj hname ▸ List.mem_map_of_mem hp))
  have hperm : (markTypes.filter (fun t => t ∈ ps.map Prod.fst)).Perm (ps.map Prod.fst) := by
    refine (List.perm_ext_iff_of_nodup (List.Nodup.filter _ (by decide)) hnodup).mpr ?_
    intro t
    have hall : t ∈ markTypes := by cases t <;> decide
    rw [List.mem_filter,decide_eq_true_eq]
    exact and_iff_right hall
  have hvalues : (ps.map Prod.fst).filterMap (storedUnder (ps.map valueEntry)) =
      ps.map (fun p => storedMark p.1 p.2) := by
    rw [List.filterMap_map]
    have hcongr : ps.filterMap (storedUnder (ps.map valueEntry) ∘ Prod.fst) =
        ps.filterMap (some ∘ fun p => storedMark p.1 p.2) :=
      List.filterMap_congr (fun p hp => storedUnder_value hnodup hp)
    rw [hcongr,List.filterMap_eq_map]
  rw [hfound,← hvalues]
  exact hperm.filterMap _

/-! ## Runs -/

/-- Every call that bulk-inserts nodes stands for one of them. -/
theorem mem_insertions {nodes : List InlineNode} {cursor : ℕ} {call : Insertion}
    (h : call ∈ insertionsFrom cursor nodes) :
    (∃ s marks, .text s marks ∈ nodes ∧ call.chunk = .text s ∧ call.format = marksToFormat marks) ∨
      ∃ attrs, .mention attrs ∈ nodes ∧ call.chunk = .embed (.obj [("mention",attrs)]) := by
  induction nodes generalizing cursor with
  | nil => exact absurd h List.not_mem_nil
  | cons n nodes ih =>
    cases n with
    | text s marks =>
      rcases List.mem_cons.mp h with rfl | h
      · exact Or.inl ⟨s,marks,List.mem_cons_self,rfl,rfl⟩
      · rcases ih h with ⟨s',marks',hmem,hcall⟩ | ⟨attrs,hmem,hcall⟩
        · exact Or.inl ⟨s',marks',List.mem_cons_of_mem _ hmem,hcall⟩
        · exact Or.inr ⟨attrs,List.mem_cons_of_mem _ hmem,hcall⟩
    | mention attrs =>
      rcases List.mem_cons.mp h with rfl | h
      · exact Or.inr ⟨attrs,List.mem_cons_self,rfl⟩
      · rcases ih h with ⟨s',marks',hmem,hcall⟩ | ⟨attrs',hmem,hcall⟩
        · exact Or.inl ⟨s',marks',List.mem_cons_of_mem _ hmem,hcall⟩
        · exact Or.inr ⟨attrs',List.mem_cons_of_mem _ hmem,hcall⟩

inductive SameText : InlineNode → InlineNode → Prop where
  | text (s : String) {marks marks' : List Mark} (hnodup : (marks.map Mark.type).Nodup)
      (h : UpTo SameMark marks' marks) : SameText (.text s marks') (.text s marks)

theorem same_marks (ps : List (MarkType × Json)) : List.Forall₂ SameMark
    (ps.map (fun p => storedMark p.1 p.2)) (ps.map readMark) := by
  induction ps with
  | nil => exact .nil
  | cons p ps ih =>
    refine .cons ⟨?_,fun hsimple => ?_⟩ ih
    · obtain ⟨t,v⟩ := p
      cases t <;> rfl
    · obtain ⟨t,v⟩ := p
      cases t <;> first | rfl | cases hsimple

theorem text_run {marks : List Mark} {attributes : Option JsonObj}
    (htyped : ∀ m ∈ marks, m.Typed)
    (h : SameFormat attributes (marksToFormat marks)) (s : String) :
    ∃ stored read, inlineNode (.text s,attributes) = stored.json ∧
      readRun (.text s,attributes) = some read ∧ SameText stored read := by
  obtain ⟨ps,hnodup,hvalued,heq⟩ := formed_values (formed_run h) htyped
  have hread : formatToMarks attributes = ps.map readMark := by
    rw [← formatToMarks_values hvalued,← heq]
    cases attributes <;> rfl
  have htruthy : ∀ k v, lookup k (ps.map valueEntry) = some v → truthy v = true := by
    intro k v hv
    obtain ⟨p,hp,hpv⟩ := List.mem_map.mp (mem_of_lookup hv)
    obtain ⟨_,rfl⟩ := Prod.mk.inj hpv
    exact truthy_value (hvalued p hp)
  have hother : ∀ k, (∀ t : MarkType, t.name ≠ k) → lookup k (ps.map valueEntry) = none :=
    fun k hk => lookup_absent (fun p _ => hk p.1)
  have hmarks := marksOf_stored htruthy (hother "href" (fun t => by cases t <;> decide))
    (hother "commentId" (fun t => by cases t <;> decide))
  have htypes : (ps.map readMark).map Mark.type = ps.map Prod.fst := by
    rw [List.map_map]
    rfl
  refine ⟨.text s _,.text s (ps.map readMark),?_,?_,
    .text s (htypes ▸ hnodup) ⟨_,stored_perm hnodup,same_marks ps⟩⟩
  · show textNode s (marksOf (attributes.getD [])) = _
    rw [heq,hmarks]
    rfl
  · rw [readRun,hread]

theorem extracted_run {nodes : List InlineNode} (htyped : ∀ n ∈ nodes, n.Typed)
    {run : Chunk × Option JsonObj} (h : Stored (applyInlineNodes nodes) run) :
    ∃ read, readRun run = some read ∧ Extracted (inlineNode run) read := by
  cases h with
  | text hcall htext s hformat =>
    rcases mem_insertions hcall with ⟨t,marks,hnode,_,hmarks⟩ | ⟨attrs,_,hchunk⟩
    · rw [hmarks] at hformat
      obtain ⟨stored,read,hstored,hread,hsame⟩ := text_run (htyped _ hnode) hformat s
      refine ⟨read,hread,?_⟩
      rw [hstored]
      cases hsame with
      | text s _ hmarks => exact .text s hmarks
    · cases htext.symm.trans hchunk
  | embed hcall hembed attributes =>
    rcases mem_insertions hcall with ⟨t,marks,_,hchunk,_⟩ | ⟨attrs,hnode,hchunk⟩
    · cases hembed.symm.trans hchunk
    · cases hembed.symm.trans hchunk
      obtain ⟨userId,label,rfl⟩ := htyped _ hnode
      exact ⟨_,rfl,.mention _⟩

/-! ## Whole texts -/

/-- A relation that holds run by run holds between the two lists of nodes. -/
theorem decoded_related {R : Json → InlineNode → Prop} {delta : List (Chunk × Option JsonObj)}
    (h : ∀ run ∈ delta, ∃ read, readRun run = some read ∧ R (inlineNode run) read) :
    List.Forall₂ R (diffToInlineNodes delta) (readInlineNodes delta) := by
  induction delta with
  | nil => exact .nil
  | cons run delta ih =>
    obtain ⟨read,hread,hone⟩ := h run List.mem_cons_self
    have hrest := ih (fun r hr => h r (List.mem_cons_of_mem _ hr))
    rw [readInlineNodes,List.filterMap_cons,hread]
    exact .cons hone hrest

structure SameEntry (e' e : String × Json) : Prop where
  key : e'.1 = e.1
  value : e.1 ≠ "link" → e.1 ≠ "comment" → e'.2 = e.2

structure SameCall (c' c : Insertion) : Prop where
  index : c'.index = c.index
  chunk : c'.chunk = c.chunk
  format : Option.Rel (UpTo SameEntry) c'.format c.format

def formatEntry (m : Mark) : String × Json := (m.type.name,formatValue m)

theorem format_fresh (marks : List Mark) : ∀ {acc : JsonObj},
    (acc.map Prod.fst++marks.map (fun m => m.type.name)).Nodup →
      marks.foldl (fun fmt m => put m.type.name (formatValue m) fmt) acc =
        acc++marks.map formatEntry := by
  induction marks with
  | nil => exact fun _ => (List.append_nil _).symm
  | cons m marks ih =>
    intro acc h
    have hnew : m.type.name ∉ acc.map Prod.fst := by
      intro hmem
      exact (List.nodup_append.mp h).2.2 _ hmem _ List.mem_cons_self rfl
    have hput : put m.type.name (formatValue m) acc = acc++[formatEntry m] := by
      rw [put,if_neg hnew]
      rfl
    have hnodup : ((acc++[formatEntry m]).map Prod.fst++
        marks.map (fun m => m.type.name)).Nodup := by
      simpa [formatEntry] using h
    have hrest := ih hnodup
    rw [List.append_assoc] at hrest
    simp only [List.map_cons,List.foldl_cons]
    exact hput.symm ▸ hrest

theorem marksToFormat_distinct {marks : List Mark} (hnodup : (marks.map Mark.type).Nodup) :
    marksToFormat marks = if marks.isEmpty then none else some (marks.map formatEntry) := by
  have hnames : (marks.map (fun m => m.type.name)).Nodup := by
    have hmap := hnodup.map (fun _ _ h => name_inj h)
    rwa [List.map_map] at hmap
  rw [marksToFormat,format_fresh marks (show (([] : JsonObj).map Prod.fst++_).Nodup from hnames)]
  rfl

theorem same_entry {m' m : Mark} (h : SameMark m' m) :
    SameEntry (formatEntry m') (formatEntry m) where
  key := congrArg MarkType.name h.type
  value := by
    intro hlink hcomment
    have hsimple : m.type.simple = true := by
      cases hm : m.type with
      | link => exact absurd (congrArg MarkType.name hm) hlink
      | comment => exact absurd (congrArg MarkType.name hm) hcomment
      | _ => rfl
    rw [h.simple hsimple]

theorem same_types {marks' marks : List Mark} (h : List.Forall₂ SameMark marks' marks) :
    marks'.map Mark.type = marks.map Mark.type := by
  induction h with
  | nil => rfl
  | cons hone _ ih => rw [List.map_cons,List.map_cons,hone.type,ih]

theorem same_format {marks' marks : List Mark} (hnodup : (marks.map Mark.type).Nodup)
    (h : UpTo SameMark marks' marks) :
    Option.Rel (UpTo SameEntry) (marksToFormat marks') (marksToFormat marks) := by
  obtain ⟨mid,hperm,hsame⟩ := h
  have hnodup' : (marks'.map Mark.type).Nodup :=
    (hperm.map Mark.type).nodup_iff.mpr (same_types hsame ▸ hnodup)
  have hempty : marks'.isEmpty = marks.isEmpty := by
    rw [hperm.isEmpty_eq]
    cases hsame <;> rfl
  rw [marksToFormat_distinct hnodup',marksToFormat_distinct hnodup,hempty]
  split
  · exact .none
  · refine .some ⟨mid.map formatEntry,hperm.map formatEntry,?_⟩
    exact List.forall₂_map_left_iff.mpr (List.forall₂_map_right_iff.mpr
      (hsame.imp (fun _ _ => same_entry)))

theorem same_calls {stored read : List InlineNode} (h : List.Forall₂ SameText stored read) :
    ∀ cursor, List.Forall₂ SameCall (insertionsFrom cursor stored)
      (insertionsFrom cursor read) := by
  induction h with
  | nil => exact fun _ => .nil
  | cons hone _ ih =>
    intro cursor
    cases hone with
    | text s hnodup hmarks => exact .cons ⟨rfl,rfl,same_format hnodup hmarks⟩ (ih _)

def InlineNode.isText : InlineNode → Bool
  | .text _ _ => true
  | .mention _ => false

def isTextNode : Json → Bool
  | .obj fields =>
    match lookup "type" fields with
    | some (.str type) => type = "text"
    | _ => false
  | _ => false

theorem textNode_isText (s : String) (marks : List Json) :
    isTextNode (textNode s marks) = true := rfl

theorem text_runs {nodes : List InlineNode} {delta : List (Chunk × Option JsonObj)}
    (htyped : ∀ n ∈ nodes, n.Typed) (h : ∀ run ∈ delta, Stored (applyInlineNodes nodes) run) :
    ∃ stored, (diffToInlineNodes delta).filter isTextNode = stored.map InlineNode.json ∧
      List.Forall₂ SameText stored ((readInlineNodes delta).filter InlineNode.isText) := by
  induction delta with
  | nil => exact ⟨[],rfl,.nil⟩
  | cons run delta ih =>
    obtain ⟨rest,hrest,hsame⟩ := ih (fun r hr => h r (List.mem_cons_of_mem _ hr))
    have hnodes : diffToInlineNodes (run::delta) = inlineNode run::diffToInlineNodes delta := rfl
    rw [hnodes,readInlineNodes,List.filterMap_cons]
    cases h run List.mem_cons_self with
    | text hcall htext s hformat =>
      rcases mem_insertions hcall with ⟨t,marks,hnode,_,hmarks⟩ | ⟨attrs,_,hchunk⟩
      · obtain ⟨stored,read,hstored,hread,hone⟩ := text_run (htyped _ hnode) (hmarks ▸ hformat) s
        refine ⟨stored::rest,?_,?_⟩
        · cases hone with
          | @text s marks marks' _ _ =>
            have htext : isTextNode (InlineNode.text s marks').json = true := textNode_isText s _
            rw [hstored,List.filter_cons_of_pos htext,hrest,List.map_cons]
        · rw [hread]
          cases hone with
          | text s hnodup hmarks => exact .cons (.text s hnodup hmarks) hsame
      · cases htext.symm.trans hchunk
    | embed hcall hembed attributes =>
      rcases mem_insertions hcall with ⟨t,marks,_,hchunk,_⟩ | ⟨attrs,hnode,hchunk⟩
      · cases hembed.symm.trans hchunk
      · cases hembed.symm.trans hchunk
        obtain ⟨userId,label,rfl⟩ := htyped _ hnode
        refine ⟨rest,?_,hsame⟩
        rw [List.filter_cons_of_neg (by exact Bool.false_ne_true)]
        exact hrest

/-- The consumer's nodes follow the browser's: a text comes through with its marks in some
order, and a mention becomes a tagged embed. The stored text nodes load as the browser's own. -/
theorem marks_survive {nodes : List InlineNode} {delta : List (Chunk × Option JsonObj)}
    (htyped : ∀ n ∈ nodes, n.Typed) (h : ∀ run ∈ delta, Stored (applyInlineNodes nodes) run) :
    List.Forall₂ Extracted (diffToInlineNodes delta) (readInlineNodes delta) ∧
      ∃ stored, (diffToInlineNodes delta).filter isTextNode = stored.map InlineNode.json ∧
        List.Forall₂ SameCall (applyInlineNodes stored)
          (applyInlineNodes ((readInlineNodes delta).filter InlineNode.isText)) := by
  refine ⟨decoded_related (fun run hrun => extracted_run htyped (h run hrun)),?_⟩
  obtain ⟨stored,hstored,hsame⟩ := text_runs htyped h
  exact ⟨stored,hstored,same_calls hsame 0⟩

def kim : Json := .obj [("userId",.num 3),("label",.str "@Kim")]

def linked : Mark := ⟨.link,some (.obj [("href",.str "/a")])⟩

def sampleNodes : List InlineNode :=
  [.text "see " [],.text "this" [linked,⟨.bold,none⟩],.mention kim]

def sampleRuns : List (Chunk × Option JsonObj) :=
  [(.text "see ",none),
    (.text "this",some [("link",.obj [("href",.str "/a")]),("bold",.bool true)]),
    (.embed (.obj [("mention",kim)]),none)]

theorem sample_typed : ∀ n ∈ sampleNodes, n.Typed := by
  intro n hn
  simp only [sampleNodes,List.mem_cons,List.not_mem_nil,or_false] at hn
  rcases hn with rfl | rfl | rfl
  · exact nofun
  · intro m hm
    simp only [List.mem_cons,List.not_mem_nil,or_false] at hm
    rcases hm with rfl | rfl
    · exact ⟨"/a",rfl⟩
    · trivial
  · exact ⟨3,"@Kim",rfl⟩

theorem sample_stored : ∀ run ∈ sampleRuns, Stored (applyInlineNodes sampleNodes) run := by
  intro run hrun
  simp only [sampleRuns,List.mem_cons,List.not_mem_nil,or_false] at hrun
  rcases hrun with rfl | rfl | rfl
  · exact .text (.head _) rfl _ .none
  · exact .text (.tail _ (.head _)) rfl _ (.some (List.Perm.refl _))
  · exact .embed (.tail _ (.tail _ (.head _))) rfl _

theorem sample_survives :
    List.Forall₂ Extracted (diffToInlineNodes sampleRuns) (readInlineNodes sampleRuns) :=
  (marks_survive sample_typed sample_stored).1

inductive SameNode : Json → InlineNode → Prop where
  | text (s : String) {marks marks' : List Mark} (h : marks'.Perm marks) :
      SameNode (InlineNode.text s marks').json (.text s marks)
  | mention (attrs : Json) : SameNode (InlineNode.mention attrs).json (.mention attrs)

def linkedRun : Chunk × Option JsonObj :=
  (.text "a",some [("link",.obj [("href",.str "/a")])])

def mentionRun : Chunk × Option JsonObj := (.embed (.obj [("mention",kim)]),none)

/-- A mention comes out as an embed, and the address of a link one level too deep. -/
theorem mention_and_link_altered :
    ((∀ n ∈ [InlineNode.mention kim], n.Typed) ∧
      (∀ run ∈ [mentionRun], Stored (applyInlineNodes [.mention kim]) run) ∧
      ¬ List.Forall₂ SameNode (diffToInlineNodes [mentionRun]) (readInlineNodes [mentionRun])) ∧
    ((∀ n ∈ [InlineNode.text "a" [linked]], n.Typed) ∧
      (∀ run ∈ [linkedRun], Stored (applyInlineNodes [.text "a" [linked]]) run) ∧
      ¬ List.Forall₂ SameNode (diffToInlineNodes [linkedRun]) (readInlineNodes [linkedRun])) := by
  refine ⟨⟨?_,?_,?_⟩,⟨?_,?_,?_⟩⟩
  · intro n hn
    rw [List.mem_singleton.mp hn]
    exact ⟨3,"@Kim",rfl⟩
  · intro run hrun
    rw [List.mem_singleton.mp hrun]
    exact .embed (.head _) rfl _
  · intro h
    have hone : SameNode (inlineNode mentionRun) (.mention kim) := (List.forall₂_cons.mp h).1
    generalize hjson : inlineNode mentionRun = json at hone
    cases hone
    exact absurd hjson (by simp [inlineNode,mentionRun,InlineNode.json])
  · intro n hn
    rw [List.mem_singleton.mp hn]
    intro m hm
    rw [List.mem_singleton.mp hm]
    exact ⟨"/a",rfl⟩
  · intro run hrun
    rw [List.mem_singleton.mp hrun]
    exact .text (.head _) rfl _ (.some (List.Perm.refl _))
  · intro h
    have hone : SameNode (inlineNode linkedRun) (.text "a" [linked]) :=
      (List.forall₂_cons.mp h).1
    generalize hjson : inlineNode linkedRun = json at hone
    cases hone with
    | text s hperm =>
      rw [List.perm_singleton.mp hperm] at hjson
      simp [inlineNode,linkedRun,marksOf,simpleMarks,eitherOf,markWith,lookup,truthy,
        InlineNode.json,textNode,linked,Mark.json,MarkType.name] at hjson

end BlockDocs.InlineNodes
