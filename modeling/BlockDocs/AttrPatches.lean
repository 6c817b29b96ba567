import BlockDocs.AppliedHistory
import BlockDocs.BlockStore
import BlockDocs.ContentOwners
import BlockDocs.Decimal

/-!
# Attribute patches at both ends

The server merges a patch into the attributes of a row, where a null deletes
its key. A client spreads the same patch over the attributes it holds, where a
null is a value like any other.
-/

set_option autoImplicit false

namespace BlockDocs.AttrPatches
open BlockDocs.InsertionMap BlockDocs.Wire BlockDocs.DocBlocks BlockDocs.ApplyOps
open BlockDocs.PostOperations BlockDocs.AppliedHistory BlockDocs.BlockStore
open BlockDocs.ContentOwners

/-- Equality of JSON values: the order of the keys of an object does not count. -/
def SameAttrs : Option Json → Option Json → Prop
  | some (.obj fields), some (.obj fields') => ∀ k, lookup k fields = lookup k fields'
  | v, v' => v = v'

def AttrsAgree (server client : Option JsonObj) : Prop :=
  SameAttrs (server.bind (lookup "attrs")) (client.bind (lookup "attrs"))

/-! ## The keys at which the ends part -/

def isNull : Json → Bool
  | .null => true
  | _ => false

/-- A patch that names a key makes the ends part there if it gives null, and agree again if not. -/
def nullsIn (apart : String → Prop) (patch : JsonObj) : String → Prop :=
  patch.foldl (fun acc kv k => if k = kv.1 then isNull kv.2 = true else acc k) apart

/-- An array is read by pairs at one end and by indices at the other. -/
def arrayApart (items : List Json) (patch : JsonObj) (k : String) : Prop :=
  ∃ d, dictOf [] items = .ok d ∧
    lookup k (stored (patched d patch)) ≠ lookup k (putAll patch (indexed items))

def Apart (apart : String → Prop) (fields fields' : JsonObj) : Prop :=
  ∀ k, lookup k fields = lookup k fields' ↔ ¬ apart k

inductive Tracks (apart : String → Prop) : Option Json → Option JsonObj → Option JsonObj →
    Prop where
  | same (content : Option JsonObj) (h : ∀ k, ¬ apart k) :
      Tracks apart (content.bind (lookup "attrs")) content content
  | patched {c c' fields fields' : JsonObj} (hserver : lookup "attrs" c = some (.obj fields))
      (hclient : lookup "attrs" c' = some (.obj fields')) (hkeyed : (fields.map Prod.fst).Nodup)
      (hkeyed' : (fields'.map Prod.fst).Nodup) (h : Apart apart fields fields') :
      Tracks apart none (some c) (some c')

variable {apart : String → Prop} {whole : Option Json}

/-! ## One patch -/

def Texts (d : PyDict) : Prop := ∀ e ∈ d, e.1 = .text e.2.1

theorem text_present {d : PyDict} (h : Texts d) (k : String) :
    ((lookup (.text k) d).map Prod.fst).getD k = k := by
  cases hl : lookup (.text k) d with
  | none => rfl
  | some e =>
    have hkey := h _ (mem_of_lookup hl)
    exact (PyKey.text.inj hkey).symm

theorem texts_setItem {d : PyDict} (h : Texts d) (k : String) (v : Json) :
    Texts (setItem d (.text k) k v) := by
  intro e he
  rw [setItem,text_present h] at he
  rcases mem_put he with rfl | ⟨he,_⟩
  · rfl
  · exact h e he

theorem texts_erase {d : PyDict} (h : Texts d) (k : PyKey) : Texts (erase k d) :=
  fun e he => h e (List.mem_filter.mp he).1

theorem lookup_stored (k : String) (d : PyDict) :
    lookup k (stored d) = lookup k (d.map Prod.snd).reverse := by
  rw [stored,lookup_putAll,lookup_nil,Option.or_none]

theorem stored_erase {d : PyDict} (h : Texts d) (j k : String) :
    lookup k (stored (erase (.text j) d)) = if k = j then none else lookup k (stored d) := by
  have hsame : ((erase (.text j) d).map Prod.snd).reverse = erase j (d.map Prod.snd).reverse := by
    rw [erase,erase,List.filter_reverse,List.filter_map]
    congr 2
    apply List.filter_congr
    intro e he
    simp [h e he]
  rw [lookup_stored,hsame,lookup_erase,lookup_stored]

theorem stored_setItem {d : PyDict} (h : Texts d) (j k : String) (v : Json) :
    lookup k (stored (setItem d (.text j) j v)) =
      if k = j then some v else lookup k (stored d) := by
  rw [lookup_stored,lookup_stored,setItem,text_present h]
  by_cases hj : PyKey.text j ∈ d.map Prod.fst
  · have hmap : (put (.text j) (j,v) d).map Prod.snd =
        (d.map Prod.snd).map (fun e => (e.1,if e.1 = j then v else e.2)) := by
      rw [put_present hj,List.map_map,List.map_map]
      apply List.map_congr_left
      intro e he
      by_cases hk : e.2.1 = j
      · simp [h e he,hk]
      · simp [h e he,hk]
    rw [hmap,← List.map_reverse,lookup_map k (fun i w => if i = j then v else w)]
    by_cases hk : k = j
    · obtain ⟨e,he,hkey⟩ := List.mem_map.mp hj
      have hmem : j ∈ (d.map Prod.snd).reverse.map Prod.fst := by
        rw [List.map_reverse,List.mem_reverse,List.map_map]
        exact List.mem_map.mpr ⟨e,he,PyKey.text.inj ((h e he).symm.trans hkey)⟩
      obtain ⟨w,hw⟩ := Option.ne_none_iff_exists'.mp (fun hnone => lookup_eq_none.mp hnone hmem)
      rw [hk,hw]
      simp
    · simp [hk]
  · rw [put_new hj,List.map_append,List.reverse_append]
    show lookup k ((j,v)::_) = _
    rw [lookup_cons]
    by_cases hk : k = j
    · rw [if_pos hk.symm,if_pos hk]
    · rw [if_neg (Ne.symm hk),if_neg hk]
      rfl

theorem texts_patchItem {d : PyDict} (h : Texts d) (kv : String × Json) :
    Texts (patchItem d kv) := by
  unfold patchItem
  split
  · exact texts_erase h _
  · exact texts_setItem h _ _

theorem apart_one {d : PyDict} {fields : JsonObj} (hd : Texts d)
    (h : Apart apart (stored d) fields) (key : String) (v : Json) :
    Apart (fun k => if k = key then isNull v = true else apart k) (stored (patchItem d (key,v)))
      (put key v fields) := by
  intro k
  have hk := h k
  by_cases hkey : k = key
  · cases v <;> simp [patchItem,isNull,stored_setItem hd,stored_erase hd,lookup_put,hkey]
  · cases v <;> simpa [patchItem,stored_setItem hd,stored_erase hd,lookup_put,hkey] using hk

theorem apart_patch {d : PyDict} {fields : JsonObj} (hd : Texts d)
    (h : Apart apart (stored d) fields) (patch : JsonObj) :
    Apart (nullsIn apart patch) (stored (patched d patch)) (putAll patch fields) := by
  induction patch generalizing apart d fields with
  | nil => exact h
  | cons kv patch ih => exact ih (texts_patchItem hd kv) (apart_one hd h kv.1 kv.2)

def Spelled (d : PyDict) : Prop := ∀ e ∈ d, ∀ s : String, e.1 = .text s → e.2.1 = s

theorem spelled_text {d : PyDict} (h : Spelled d) (k : String) :
    ((lookup (.text k) d).map Prod.fst).getD k = k := by
  cases hl : lookup (.text k) d with
  | none => rfl
  | some e => exact h _ (mem_of_lookup hl) k rfl

theorem spelled_key {k : Json} {key : PyKey} {text : String} (h : pyKey k = some (key,text)) :
    ∀ s : String, key = .text s → text = s := by
  unfold pyKey at h
  split at h <;> cases h <;> intro s hs <;> cases hs
  rfl

theorem spelled_setItem {d : PyDict} (h : Spelled d) {key : PyKey} {text : String}
    (htext : ∀ s : String, key = .text s → text = s) (v : Json) :
    Spelled (setItem d key text v) := by
  intro e he s hs
  rcases mem_put he with rfl | ⟨he,_⟩
  · cases hs
    rw [htext s rfl]
    exact spelled_text h s
  · exact h e he s hs

/-- Each entry is a pair of the list, under one key or another. -/
theorem mem_dictOf {items : List Json} {d next : PyDict} (hd : Spelled d)
    (h : dictOf d items = .ok next) : Spelled next ∧
      (∀ item ∈ items, ∃ pair, pairOf item = some pair) ∧
      ∀ e ∈ next, e ∈ d ∨ ∃ item ∈ items, ∃ k, pairOf item = some (k,e.2.2) := by
  induction items generalizing d with
  | nil =>
    cases h
    exact ⟨hd,fun _ hi => absurd hi List.not_mem_nil,fun e he => Or.inl he⟩
  | cons item items ih =>
    simp only [dictOf] at h
    split at h
    · cases h
    · next k v hpair =>
      split at h
      · cases h
      · next key text hkey =>
        obtain ⟨hspelled,hpairs,hmem⟩ := ih (spelled_setItem hd (spelled_key hkey) v) h
        refine ⟨hspelled,List.forall_mem_cons.mpr ⟨⟨_,hpair⟩,hpairs⟩,fun e he => ?_⟩
        rcases hmem e he with he | ⟨i,hi,hk⟩
        · rcases mem_put he with rfl | ⟨he,_⟩
          · exact Or.inr ⟨item,List.mem_cons_self,k,hpair⟩
          · exact Or.inl he
        · exact Or.inr ⟨i,List.mem_cons_of_mem _ hi,hk⟩

theorem mem_patchItem {d : PyDict} (hd : Spelled d) (kv : String × Json) :
    Spelled (patchItem d kv) ∧ ∀ e ∈ patchItem d kv, e ∈ d ∨ e.2.1 = kv.1 := by
  unfold patchItem
  split
  · exact ⟨fun e he => hd e (List.mem_filter.mp he).1,
      fun e he => Or.inl (List.mem_filter.mp he).1⟩
  · refine ⟨spelled_setItem hd (fun s hs => PyKey.text.inj hs) _,fun e he => ?_⟩
    rcases mem_put he with rfl | ⟨he,_⟩
    · exact Or.inr (spelled_text hd kv.1)
    · exact Or.inl he

theorem mem_patched {d : PyDict} (hd : Spelled d) (patch : JsonObj) :
    ∀ e ∈ patched d patch, e ∈ d ∨ e.2.1 ∈ patch.map Prod.fst := by
  induction patch generalizing d with
  | nil => exact fun e he => Or.inl he
  | cons kv patch ih =>
    obtain ⟨hspelled,hone⟩ := mem_patchItem hd kv
    intro e he
    rcases ih hspelled e he with he | he
    · refine (hone e he).imp_right fun hk => ?_
      rw [List.map_cons,hk]
      exact List.mem_cons_self
    · exact Or.inr (List.mem_cons_of_mem _ he)

/-- How often a second half is a pair again. -/
def weight : Json → ℕ
  | .arr [_,v] => weight v+1
  | .obj _ => 1
  | _ => 0

/-- The second half of a pair, if it is a pair too, is a smaller one. -/
theorem weight_pair {item k v : Json} {pair : Json × Json} (h : pairOf item = some (k,v))
    (hv : pairOf v = some pair) : weight v < weight item := by
  unfold pairOf at h
  split at h
  · cases h
    simp [weight]
  · cases h
    simp [weight]
  · next s =>
    split at h
    · cases h
      simp [pairOf] at hv
    · cases h
  · cases h

theorem toString_injective : Function.Injective (toString : ℕ → String) := by
  have hread : ∀ n : ℕ, Decimal.readDecimal (toString n).toList = some n := by
    intro n
    rw [show (toString n).toList = Decimal.decimal n from String.toList_ofList]
    exact Decimal.readDecimal_decimal n
  intro m n h
  exact Option.some.inj ((hread m).symm.trans (h ▸ hread n))

theorem indexed_nodup (items : List Json) : ((indexed items).map Prod.fst).Nodup := by
  have hkeys : (indexed items).map Prod.fst = (items.zipIdx.map Prod.snd).map toString := by
    rw [indexed,List.mapIdx_eq_zipIdx_map,List.map_map,List.map_map]
    rfl
  rw [hkeys,List.zipIdx_map_snd]
  exact List.Nodup.map toString_injective List.nodup_range'

theorem lookup_indexed {items : List Json} {i : ℕ} {item : Json} (h : items[i]? = some item) :
    lookup (toString i) (indexed items) = some item := by
  have hmem : (toString i,item) ∈ indexed items := by
    rw [indexed,List.mem_mapIdx]
    obtain ⟨hi,hitem⟩ := List.getElem?_eq_some_iff.mp h
    exact ⟨i,hi,by rw [hitem]⟩
  exact lookup_of_mem (indexed_nodup items) hmem

/-- The ends disagree after a patch of an array that names none of its indices. -/
theorem list_apart {c content : JsonObj} {item : Json} {items : List Json} {patch : JsonObj}
    (hattrs : lookup "attrs" c = some (.arr (item::items)))
    (hmerge : mergeAttrs c patch = .ok content)
    (hnames : ∀ i < (item::items).length, toString i ∉ patch.map Prod.fst) :
    ¬ AttrsAgree (some content) (some (spreadAttrs c patch)) := by
  obtain ⟨d,hd,rfl⟩ := mergeAttrs_ok hmerge
  rw [ApplyOps.attrsOf,hattrs] at hd
  obtain ⟨hspelled,hpairs,hmem⟩ := mem_dictOf (fun _ he => absurd he List.not_mem_nil) hd
  intro hagree
  have hsame : ∀ k, lookup k (stored (patched d patch)) =
      lookup k (putAll patch (putAll (indexed (item::items)) [])) := by
    simpa [AttrsAgree,SameAttrs,lookup_put,spreadAttrs,BlockStore.attrsOf,ownEntries,hattrs]
      using hagree
  -- every element would be the second half of another one
  have hhalf : ∀ v ∈ item::items, ∃ j ∈ item::items, ∃ k, pairOf j = some (k,v) := by
    intro v hv
    obtain ⟨i,hi⟩ := List.mem_iff_getElem?.mp hv
    have hlt : i < (item::items).length := (List.getElem?_eq_some_iff.mp hi).1
    have hunnamed : lookup (toString i) patch.reverse = none := by
      rw [lookup_eq_none,List.map_reverse,List.mem_reverse]
      exact hnames i hlt
    have hserver := hsame (toString i)
    rw [lookup_putAll,hunnamed,Option.none_or,putAll_copy (indexed_nodup _),lookup_indexed hi,
      lookup_stored] at hserver
    obtain ⟨e,he,heq⟩ := List.mem_map.mp (List.mem_reverse.mp (mem_of_lookup hserver))
    rcases mem_patched hspelled patch e he with he | hnamed
    · obtain ⟨j,hj,k,hk⟩ := (hmem e he).resolve_left List.not_mem_nil
      exact ⟨j,hj,k,by rw [hk,heq]⟩
    · rw [heq] at hnamed
      exact absurd hnamed (hnames i hlt)
  obtain ⟨top,htop⟩ := Option.ne_none_iff_exists'.mp
    (fun hnone : (item::items).argmax weight = none => by simp at hnone)
  have hmem' : top ∈ item::items := List.argmax_mem htop
  obtain ⟨j,hj,k,hk⟩ := hhalf top hmem'
  obtain ⟨pair,hpair⟩ := hpairs top hmem'
  exact absurd (List.le_of_mem_argmax hj htop) (not_le_of_gt (weight_pair hk hpair))

/-- The array read by pairs has text keys only: its keys part where the two readings do, until a
patch names them. -/
theorem arrayApart_texts {items : List Json} {d : PyDict} (hd : dictOf [] items = .ok d)
    (htexts : Texts d) (patch : JsonObj) (k : String) : arrayApart items patch k ↔
      nullsIn (fun k => lookup k (stored d) ≠ lookup k (indexed items)) patch k := by
  have hstart : Apart (fun k => lookup k (stored d) ≠ lookup k (indexed items)) (stored d)
      (indexed items) := fun k => not_not.symm
  have hpatched := apart_patch htexts hstart patch k
  constructor
  · rintro ⟨d',hd',hne⟩
    cases hd.symm.trans hd'
    exact not_not.mp (fun hno => hne (hpatched.mpr hno))
  · exact fun h => ⟨d,hd,fun heq => hpatched.mp heq h⟩

/-! ## What the ends hold -/

theorem agree_iff {server client : Option JsonObj} (h : Tracks apart whole server client) :
    AttrsAgree server client ↔ ∀ k, ¬ apart k := by
  cases h with
  | same content hno =>
    refine iff_of_true ?_ hno
    unfold AttrsAgree SameAttrs
    split
    · next hs hc =>
      cases hs.symm.trans hc
      exact fun _ => rfl
    · rfl
  | patched hserver hclient _ _ hapart =>
    simp only [AttrsAgree,Option.bind_some,hserver,hclient,SameAttrs]
    exact forall_congr' hapart

/-! ## One operation -/

variable {docId : DocId} {b : Uuid}

def received (s : Store) (frames : List (List WireOp × Option StreamId)) : Store :=
  frames.foldl (fun s f => s.applyRemoteOps f.1 f.2) s

def ticked (checked : Json) : List Sent :=
  [⟨false,1,insertUnder 7 none⟩,
    ⟨false,1,{
      op := .update_attrs
      blockId := .uuid 7
      payload := { attrs := some [("checked",checked)] } }⟩]

end BlockDocs.AttrPatches
