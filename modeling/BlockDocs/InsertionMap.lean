import Mathlib.Data.List.Nodup
import Mathlib.Tactic

/-!
# Insertion-ordered maps

Association lists with one entry for each key. Writing an existing key keeps
its place and a new key goes to the end, as in a dictionary whose iteration
order is the order of first insertion.
-/

set_option autoImplicit false

namespace BlockDocs.InsertionMap

variable {K V W : Type*} [DecidableEq K]

def lookup (k : K) (es : List (K × V)) : Option V :=
  (es.find? (fun e => e.1 = k)).map Prod.snd

def put (k : K) (v : V) (es : List (K × V)) : List (K × V) :=
  if k ∈ es.map Prod.fst then es.map (fun e => if e.1 = k then (k,v) else e)
  else es++[(k,v)]

def erase (k : K) (es : List (K × V)) : List (K × V) := es.filter (fun e => e.1 ≠ k)

theorem lookup_nil (k : K) : lookup k ([] : List (K × V)) = none := rfl

theorem lookup_cons (k : K) (e : K × V) (es : List (K × V)) :
    lookup k (e::es) = if e.1 = k then some e.2 else lookup k es := by
  unfold lookup
  by_cases h : e.1 = k <;> simp [h]

theorem lookup_eq_none {k : K} {es : List (K × V)} :
    lookup k es = none ↔ k ∉ es.map Prod.fst := by
  induction es with
  | nil => simp [lookup_nil]
  | cons e es ih =>
    rw [lookup_cons]
    by_cases h : e.1 = k
    · simp [h]
    · simp [h,ih,Ne.symm h]

theorem mem_of_lookup {k : K} {v : V} {es : List (K × V)} (h : lookup k es = some v) :
    (k,v) ∈ es := by
  induction es with
  | nil => cases h
  | cons e es ih =>
    rw [lookup_cons] at h
    split at h
    · next hk =>
      cases h
      exact hk ▸ List.mem_cons_self
    · exact List.mem_cons_of_mem _ (ih h)

theorem lookup_append (k : K) (es fs : List (K × V)) :
    lookup k (es++fs) = (lookup k es).or (lookup k fs) := by
  induction es with
  | nil => simp [lookup_nil]
  | cons e es ih =>
    rw [List.cons_append,lookup_cons,lookup_cons,ih]
    by_cases h : e.1 = k <;> simp [h]

/-- Rewriting values without touching keys. -/
theorem lookup_map (k : K) (f : K → V → W) (es : List (K × V)) :
    lookup k (es.map (fun e => (e.1,f e.1 e.2))) = (lookup k es).map (f k) := by
  induction es with
  | nil => rfl
  | cons e es ih =>
    rw [List.map_cons,lookup_cons,lookup_cons,ih]
    by_cases h : e.1 = k
    · subst h; simp
    · simp [h]

theorem lookup_put (k j : K) (v : V) (es : List (K × V)) :
    lookup j (put k v es) = if j = k then some v else lookup j es := by
  unfold put
  by_cases hk : k ∈ es.map Prod.fst
  · rw [if_pos hk]
    have hm : es.map (fun e => if e.1 = k then (k,v) else e) =
        es.map (fun e => (e.1,if e.1 = k then v else e.2)) := by
      apply List.map_congr_left
      intro e _
      by_cases h : e.1 = k
      · subst h; simp
      · simp [h]
    rw [hm,lookup_map j (fun i w => if i = k then v else w)]
    by_cases hj : j = k
    · subst hj
      cases hl : lookup j es with
      | none => exact absurd hk (lookup_eq_none.mp hl)
      | some w => simp
    · simp [hj]
  · rw [if_neg hk,lookup_append,lookup_cons,lookup_nil]
    by_cases hj : j = k
    · subst hj
      simp [lookup_eq_none.mpr hk]
    · simp [hj,Ne.symm hj]

theorem lookup_of_mem {es : List (K × V)} (h : (es.map Prod.fst).Nodup) {e : K × V}
    (he : e ∈ es) : lookup e.1 es = some e.2 := by
  induction es with
  | nil => exact absurd he List.not_mem_nil
  | cons f es ih =>
    obtain ⟨hnew,hrest⟩ := List.nodup_cons.mp h
    rw [lookup_cons]
    rcases List.mem_cons.mp he with rfl | he
    · exact if_pos rfl
    · have hne : f.1 ≠ e.1 := fun hf => hnew (hf ▸ List.mem_map_of_mem he)
      rw [if_neg hne,ih hrest he]

theorem put_present {k : K} {v : V} {es : List (K × V)} (h : k ∈ es.map Prod.fst) :
    put k v es = es.map (fun e => if e.1 = k then (k,v) else e) := if_pos h

theorem erase_absent {k : K} {es : List (K × V)} (h : lookup k es = none) : erase k es = es := by
  apply List.filter_eq_self.mpr
  intro e he
  refine decide_eq_true (fun hk => lookup_eq_none.mp h ?_)
  exact hk ▸ List.mem_map_of_mem he

theorem erase_put {k : K} {v : V} {es : List (K × V)} (h : lookup k es = none) :
    erase k (put k v es) = es := by
  have hself : erase k [(k,v)] = [] := List.filter_cons_of_neg (by simp)
  rw [put,if_neg (lookup_eq_none.mp h),erase,List.filter_append]
  show erase k es++erase k [(k,v)] = es
  rw [erase_absent h,hself,List.append_nil]

theorem lookup_erase (k j : K) (es : List (K × V)) :
    lookup j (erase k es) = if j = k then none else lookup j es := by
  induction es with
  | nil => simp [erase,lookup_nil]
  | cons e es ih =>
    unfold erase at ih ⊢
    by_cases he : e.1 = k
    · rw [List.filter_cons_of_neg (by simpa using he),ih,lookup_cons]
      by_cases hj : j = k
      · simp [hj]
      · have : e.1 ≠ j := fun h => hj (h.symm.trans he)
        simp [hj,this]
    · rw [List.filter_cons_of_pos (by simpa using he),lookup_cons,lookup_cons,ih]
      by_cases hj : j = k
      · subst hj; simp [he]
      · simp [hj]

theorem keys_put (k : K) (v : V) (es : List (K × V)) :
    (put k v es).map Prod.fst =
      if k ∈ es.map Prod.fst then es.map Prod.fst else es.map Prod.fst++[k] := by
  unfold put
  split
  · rw [List.map_map]
    apply List.map_congr_left
    intro e _
    by_cases h : e.1 = k <;> simp [h]
  · simp

theorem put_nodup (k : K) (v : V) {es : List (K × V)} (h : (es.map Prod.fst).Nodup) :
    ((put k v es).map Prod.fst).Nodup := by
  rw [keys_put]
  split
  · exact h
  · next hk =>
    refine List.nodup_append.mpr ⟨h,List.nodup_singleton k,fun a ha b hb => ?_⟩
    rintro rfl
    exact hk ((List.mem_singleton.mp hb) ▸ ha)

theorem erase_nodup (k : K) {es : List (K × V)} (h : (es.map Prod.fst).Nodup) :
    ((erase k es).map Prod.fst).Nodup :=
  h.sublist (List.filter_sublist.map _)

/-! ## Writing several entries -/

theorem put_put (k : K) (v w : V) (es : List (K × V)) : put k v (put k w es) = put k v es := by
  have hkey : k ∈ (put k w es).map Prod.fst := by
    rw [keys_put]
    split
    · assumption
    · exact List.mem_append_right _ List.mem_cons_self
  rw [put_present hkey]
  unfold put
  split
  · rw [List.map_map]
    apply List.map_congr_left
    intro e _
    by_cases h : e.1 = k <;> simp [h]
  · next hnew =>
    rw [List.map_append]
    congr 1
    · refine (List.map_congr_left (fun e he => if_neg ?_)).trans (List.map_id _)
      exact fun h => hnew (h ▸ List.mem_map_of_mem he)
    · simp

theorem mem_put {k : K} {v : V} {es : List (K × V)} {e : K × V} (h : e ∈ put k v es) :
    e = (k,v) ∨ (e ∈ es ∧ e.1 ≠ k) := by
  unfold put at h
  split at h
  · obtain ⟨d,hd,rfl⟩ := List.mem_map.mp h
    by_cases hk : d.1 = k
    · exact Or.inl (if_pos hk)
    · rw [if_neg hk]
      exact Or.inr ⟨hd,hk⟩
  · next hnew =>
    rcases List.mem_append.mp h with he | he
    · exact Or.inr ⟨he,fun hk => hnew (hk ▸ List.mem_map_of_mem he)⟩
    · exact Or.inl (List.mem_singleton.mp he)

def putAll (ps es : List (K × V)) : List (K × V) := ps.foldl (fun acc p => put p.1 p.2 acc) es

theorem putAll_append (ps qs es : List (K × V)) : putAll (ps++qs) es = putAll qs (putAll ps es) :=
  List.foldl_append

theorem keys_putAll {k : K} {es : List (K × V)} (ps : List (K × V))
    (h : k ∈ es.map Prod.fst ∨ k ∈ ps.map Prod.fst) : k ∈ (putAll ps es).map Prod.fst := by
  induction ps generalizing es with
  | nil => exact h.resolve_right List.not_mem_nil
  | cons p ps ih =>
    show k ∈ (putAll ps (put p.1 p.2 es)).map Prod.fst
    refine ih ?_
    rw [List.map_cons,List.mem_cons] at h
    rw [keys_put]
    split <;> grind

def overwrite (e p : K × V) : K × V := if e.1 = p.1 then p else e

theorem key_overwrite (e : K × V) (ps : List (K × V)) : (ps.foldl overwrite e).1 = e.1 := by
  induction ps generalizing e with
  | nil => rfl
  | cons p ps ih =>
    rw [List.foldl_cons,ih]
    unfold overwrite
    split
    · next h => exact h.symm
    · rfl

theorem putAll_present {ps es : List (K × V)} (h : ∀ p ∈ ps, p.1 ∈ es.map Prod.fst) :
    putAll ps es = es.map (fun e => ps.foldl overwrite e) := by
  induction ps generalizing es with
  | nil => exact (List.map_id _).symm
  | cons p ps ih =>
    have hp := h p List.mem_cons_self
    have hkeys : (put p.1 p.2 es).map Prod.fst = es.map Prod.fst :=
      (keys_put _ _ _).trans (if_pos hp)
    have hrest : putAll ps (put p.1 p.2 es) =
        (put p.1 p.2 es).map (fun e => ps.foldl overwrite e) :=
      ih (fun q hq => by rw [hkeys]; exact h q (List.mem_cons_of_mem p hq))
    refine hrest.trans ?_
    rw [put_present hp,List.map_map]
    rfl

/-- An entry that is left behind is changed by none of the writes. -/
theorem overwrite_putAll {ps es : List (K × V)} {e : K × V} (h : e ∈ putAll ps es) :
    ps.foldl overwrite e = e := by
  induction ps using List.reverseRecOn with
  | nil => rfl
  | append_singleton ps p ih =>
    rw [putAll_append] at h
    rw [List.foldl_append]
    show overwrite (ps.foldl overwrite e) p = e
    rcases mem_put h with rfl | ⟨he,hne⟩
    · exact if_pos (key_overwrite _ ps)
    · rw [ih he]
      exact if_neg hne

theorem nodup_putAll (ps : List (K × V)) {es : List (K × V)} (h : (es.map Prod.fst).Nodup) :
    ((putAll ps es).map Prod.fst).Nodup := by
  induction ps generalizing es with
  | nil => exact h
  | cons p ps ih => exact ih (put_nodup p.1 p.2 h)

theorem nodup_copy (es : List (K × V)) : ((putAll es []).map Prod.fst).Nodup :=
  nodup_putAll es List.nodup_nil

theorem put_new {k : K} {v : V} {es : List (K × V)} (h : k ∉ es.map Prod.fst) :
    put k v es = es++[(k,v)] := if_neg h

/-- Entries without a repeated key are written one behind the other. -/
theorem putAll_new {ps es : List (K × V)} (h : ((es++ps).map Prod.fst).Nodup) :
    putAll ps es = es++ps := by
  induction ps generalizing es with
  | nil => exact (List.append_nil es).symm
  | cons p ps ih =>
    have hp : p.1 ∉ es.map Prod.fst := by
      rw [List.map_append,List.map_cons] at h
      exact fun hmem => (List.nodup_append.mp h).2.2 _ hmem _ List.mem_cons_self rfl
    show putAll ps (put p.1 p.2 es) = es++p::ps
    rw [put_new hp,ih (by simpa using h)]
    simp

theorem putAll_copy {es : List (K × V)} (h : (es.map Prod.fst).Nodup) : putAll es [] = es :=
  putAll_new h

/-- Of several writes to one key the last one counts. -/
theorem lookup_putAll (k : K) (ps es : List (K × V)) :
    lookup k (putAll ps es) = (lookup k ps.reverse).or (lookup k es) := by
  induction ps using List.reverseRecOn with
  | nil => rfl
  | append_singleton ps p ih =>
    rw [putAll_append,List.reverse_append,List.reverse_singleton,List.singleton_append,lookup_cons]
    show lookup k (put p.1 p.2 (putAll ps es)) = _
    rw [lookup_put,ih]
    by_cases h : k = p.1
    · rw [if_pos h,if_pos h.symm,Option.some_or]
    · rw [if_neg h,if_neg (Ne.symm h)]

theorem putAll_twice (ps es : List (K × V)) : putAll ps (putAll ps es) = putAll ps es := by
  rw [putAll_present (fun p hp => keys_putAll ps (Or.inr (List.mem_map_of_mem hp)))]
  exact (List.map_congr_left (fun e he => overwrite_putAll he)).trans (List.map_id _)

structure OrderedMap (K V : Type*) where
  entries : List (K × V)
  keyed : (entries.map Prod.fst).Nodup

namespace OrderedMap

def empty : OrderedMap K V := ⟨[],List.nodup_nil⟩

def get (m : OrderedMap K V) (k : K) : Option V := lookup k m.entries

def set (m : OrderedMap K V) (k : K) (v : V) : OrderedMap K V :=
  ⟨put k v m.entries,put_nodup k v m.keyed⟩

def delete (m : OrderedMap K V) (k : K) : OrderedMap K V :=
  ⟨erase k m.entries,erase_nodup k m.keyed⟩

def mapValues (m : OrderedMap K V) (f : K → V → V) : OrderedMap K V :=
  ⟨m.entries.map (fun e => (e.1,f e.1 e.2)),by simpa [Function.comp_def] using m.keyed⟩

def values (m : OrderedMap K V) : List V := m.entries.map Prod.snd

omit [DecidableEq K] in
theorem ext_entries {m n : OrderedMap K V} (h : m.entries = n.entries) : m = n := by
  obtain ⟨entries,_⟩ := m
  cases h
  rfl

theorem delete_absent {m : OrderedMap K V} {k : K} (h : m.get k = none) : m.delete k = m :=
  ext_entries (erase_absent h)

theorem delete_set {m : OrderedMap K V} {k : K} (h : m.get k = none) (v : V) :
    (m.set k v).delete k = m := ext_entries (erase_put h)

/-- Writing a present key is a change of its value. -/
theorem set_present {m : OrderedMap K V} {k : K} {v : V} (h : m.get k = some v) (g : V → V) :
    m.set k (g v) = m.mapValues (fun j w => if j = k then g w else w) := by
  apply ext_entries
  have hk : k ∈ m.entries.map Prod.fst := by
    by_contra hn
    cases (lookup_eq_none.mpr hn).symm.trans h
  refine (put_present hk).trans (List.map_congr_left (fun e he => ?_))
  by_cases hek : e.1 = k
  · have hv : e.2 = v := Option.some.inj ((lookup_of_mem m.keyed he).symm.trans (hek ▸ h))
    simp only [hek,hv,if_true]
  · simp only [if_neg hek]

theorem set_same {m : OrderedMap K V} {k : K} {v : V} (h : m.get k = some v) : m.set k v = m := by
  refine (set_present h id).trans (ext_entries ?_)
  refine (List.map_congr_left (fun e _ => ?_)).trans (List.map_id _)
  simp

@[simp] theorem get_empty (k : K) : (empty : OrderedMap K V).get k = none := rfl

@[simp] theorem get_set (m : OrderedMap K V) (k j : K) (v : V) :
    (m.set k v).get j = if j = k then some v else m.get j := lookup_put k j v m.entries

@[simp] theorem get_delete (m : OrderedMap K V) (k j : K) :
    (m.delete k).get j = if j = k then none else m.get j := lookup_erase k j m.entries

@[simp] theorem get_mapValues (m : OrderedMap K V) (f : K → V → V) (j : K) :
    (m.mapValues f).get j = (m.get j).map (f j) := lookup_map j f m.entries

end OrderedMap

end BlockDocs.InsertionMap
