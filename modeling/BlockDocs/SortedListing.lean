import Mathlib.Data.List.Perm.Basic
import Mathlib.Order.Defs.LinearOrder
import Mathlib.Tactic

/-!
# Listings sorted by a key

Keys may repeat, so a collection can have several sorted listings. Where a
new element stands in all of them is decided by comparing its key with the
keys that are already there.
-/

set_option autoImplicit false

namespace BlockDocs.SortedListing

variable {α κ : Type*} [LinearOrder κ] (key : α → κ)

def Listing (xs listed : List α) : Prop :=
  listed.Perm xs ∧ listed.Pairwise (fun a b => key a ≤ key b)

def PutAt (place : List α → Prop) (x : α) (xs listed : List α) : Prop :=
  ∃ pre post, listed = pre++x::post ∧ Listing key xs (pre++post) ∧ place pre

variable {key} {x r : α} {xs ys listed : List α}

theorem listing_exists (key : α → κ) (xs : List α) : ∃ listed, Listing key xs listed := by
  have h : (xs.mergeSort (fun a b => decide (key a ≤ key b))).Pairwise
      (fun a b => decide (key a ≤ key b) = true) :=
    List.pairwise_mergeSort
      (fun a b c hab hbc => by
        rw [decide_eq_true_eq] at hab hbc ⊢
        exact hab.trans hbc)
      (fun a b => by
        rw [Bool.or_eq_true,decide_eq_true_eq,decide_eq_true_eq]
        exact le_total _ _) xs
  exact ⟨_,List.mergeSort_perm xs _,h.imp (fun hab => of_decide_eq_true hab)⟩

theorem listing_perm (h : Listing key xs listed) (hp : xs.Perm ys) : Listing key ys listed :=
  ⟨h.1.trans hp,h.2⟩

theorem listing_remove (h : Listing key (x::xs) listed) :
    ∃ pre post, listed = pre++x::post ∧ Listing key xs (pre++post) := by
  obtain ⟨pre,post,rfl⟩ := List.append_of_mem (h.1.mem_iff.mpr List.mem_cons_self)
  have hperm : (x::(pre++post)).Perm (x::xs) := List.perm_middle.symm.trans h.1
  have hsub : (pre++post).Sublist (pre++x::post) :=
    (List.Sublist.refl pre).append (List.sublist_cons_self x post)
  exact ⟨pre,post,rfl,hperm.cons_inv,h.2.sublist hsub⟩

/-- Two elements with one key may change places. -/
theorem listing_swap {u v : α} {a b c : List α} (h : Listing key xs (a++u::(b++v::c)))
    (hkey : key u = key v) : Listing key xs (a++v::(b++u::c)) := by
  have hkeys : (a++v::(b++u::c)).map key = (a++u::(b++v::c)).map key := by simp [hkey]
  have hsorted := List.pairwise_map.mpr h.2
  rw [← hkeys] at hsorted
  have hperm : (v::(b++u::c)).Perm (u::(b++v::c)) :=
    (List.perm_middle.cons v).trans ((List.Perm.swap u v _).trans (List.perm_middle.symm.cons u))
  exact ⟨(hperm.append_left a).trans h.1,List.pairwise_map.mp hsorted⟩

/-- An element is first in every listing exactly when its key is the least
and unshared. -/
theorem put_first_iff (hx : x ∉ xs) :
    (∀ listed, Listing key (x::xs) listed → PutAt key (· = []) x xs listed) ↔
      ∀ s ∈ xs, key x < key s := by
  constructor
  · intro h s hs
    obtain ⟨listed,hl⟩ := listing_exists key (x::xs)
    obtain ⟨pre,post,rfl,hrest,rfl⟩ := h listed hl
    have hspost : s ∈ post := hrest.1.mem_iff.mpr hs
    have hle : key x ≤ key s := (List.pairwise_cons.mp hl.2).1 s hspost
    apply lt_of_le_of_ne hle
    intro heq
    obtain ⟨b,c,rfl⟩ := List.append_of_mem hspost
    have hswap : Listing key (x::xs) (s::(b++x::c)) := listing_swap (a := []) hl heq
    obtain ⟨pre,post,hlist,_,rfl⟩ := h _ hswap
    have hsx : s = x := (List.cons.inj hlist).1
    exact hx (hsx ▸ hs)
  · intro h listed hl
    obtain ⟨pre,post,rfl,hrest⟩ := listing_remove hl
    refine ⟨pre,post,rfl,hrest,?_⟩
    by_contra hne
    obtain ⟨c,hc⟩ := List.exists_mem_of_ne_nil pre hne
    have hcx : key c ≤ key x := (List.pairwise_append.mp hl.2).2.2 c hc x List.mem_cons_self
    have hxc := h c (hrest.1.mem_iff.mp (List.mem_append_left _ hc))
    exact absurd hcx (not_le_of_gt hxc)

theorem before_of_lt {pre post : List α} {s : α} (hl : Listing key (x::xs) (pre++x::post))
    (hrest : (pre++post).Perm xs) (hs : s ∈ xs) (hsx : key s < key x) : s ∈ pre := by
  have hpost : s ∉ post := by
    intro hm
    have hxs := (List.pairwise_cons.mp (List.pairwise_append.mp hl.2).2.1).1 s hm
    exact absurd hxs (not_le_of_gt hsx)
  exact (List.mem_append.mp (hrest.mem_iff.mpr hs)).resolve_right hpost

/-- If `x` follows `r` in every listing, no other element ties with `r`: it could
change places with `r` and would then stand between them. -/
theorem unshared_of_put_after (hnd : (x::xs).Nodup) (hlt : key r < key x)
    (h : ∀ listed, Listing key (x::xs) listed →
      PutAt key (fun pre => ∃ p, pre = p++[r]) x xs listed) {s : α} (hs : s ∈ xs)
    (hkey : key s = key r) : s = r := by
  by_contra hne
  obtain ⟨listed,hl⟩ := listing_exists key (x::xs)
  obtain ⟨pre,post,rfl,hrest,p,rfl⟩ := h listed hl
  have hpre : s ∈ p++[r] := before_of_lt hl hrest.1 hs (hkey ▸ hlt)
  have hp : s ∈ p := by simpa [hne] using hpre
  obtain ⟨a,b,rfl⟩ := List.append_of_mem hp
  -- the same listing with the two tied elements exchanged ends in `s` before `x`
  have hswap : Listing key (x::xs) (a++r::(b++s::(x::post))) := by
    apply listing_swap _ hkey
    simpa using hl
  obtain ⟨pre,post',hlist,_,q,rfl⟩ := h _ hswap
  have hform : ((a++r::b)++[s])++x::post = (q++[r])++x::post' := by simpa using hlist
  have hnotin : x ∉ (a++r::b)++[s] ∧ x ∉ post := by
    have hcons := List.nodup_middle.mp (hl.1.nodup_iff.mpr hnd)
    have hout := (List.nodup_cons.mp hcons).1
    constructor
    · intro hm
      exact hout (List.mem_append_left _ (by simp at hm ⊢; tauto))
    · exact fun hm => hout (List.mem_append_right _ hm)
  have heq := ((List.append_cons_inj_of_notMem hnotin.1 hnotin.2).mp hform).1
  have hlast : [s] = [r] := (List.append_inj' heq rfl).2
  exact hne (List.cons.inj hlast).1

/-- Nothing fits between `r` and `x` once `r` shares its key with nobody. -/
theorem put_after_of_unshared (hxs : xs.Nodup) (hr : r ∈ xs) (hlt : key r < key x)
    (hgap : ∀ s ∈ xs, key s ≤ key r ∨ key x < key s) (h : ∀ s ∈ xs, key s = key r → s = r)
    (hl : Listing key (x::xs) listed) :
    PutAt key (fun pre => ∃ p, pre = p++[r]) x xs listed := by
  obtain ⟨pre,post,rfl,hrest⟩ := listing_remove hl
  have hmem : r ∈ pre := before_of_lt hl hrest.1 hr hlt
  obtain ⟨p,q,rfl⟩ := List.append_of_mem hmem
  have hndup : (p++r::q++post).Nodup := hrest.1.nodup_iff.mpr hxs
  have hq : q = [] := by
    by_contra hne
    obtain ⟨l,hlq⟩ := List.exists_mem_of_ne_nil q hne
    have hsorted := List.pairwise_append.mp hl.2
    have hlx : key l ≤ key x := hsorted.2.2 l (by simp [hlq]) x List.mem_cons_self
    have hrl : key r ≤ key l :=
      (List.pairwise_cons.mp (List.pairwise_append.mp hsorted.1).2.1).1 l hlq
    have hlxs : l ∈ xs := hrest.1.mem_iff.mp (by simp [hlq])
    have hle := (hgap l hlxs).resolve_right (not_lt_of_ge hlx)
    obtain rfl := h l hlxs (le_antisymm hle hrl)
    have hrq := (List.nodup_append.mp (List.nodup_append.mp hndup).1).2.1
    exact (List.nodup_cons.mp hrq).1 hlq
  exact ⟨_,post,rfl,hrest,p,by rw [hq]⟩

/-- An element whose key lies above that of `r`, with no key in between, comes
right after `r` in every listing exactly when no other element shares the key
of `r`. -/
theorem put_after_iff (hnd : (x::xs).Nodup) (hr : r ∈ xs) (hlt : key r < key x)
    (hgap : ∀ s ∈ xs, key s ≤ key r ∨ key x < key s) :
    (∀ listed, Listing key (x::xs) listed → PutAt key (fun pre => ∃ p, pre = p++[r]) x xs listed) ↔
      ∀ s ∈ xs, key s = key r → s = r := by
  constructor
  · exact fun h s hs hkey => unshared_of_put_after hnd hlt h hs hkey
  · exact fun h listed hl => put_after_of_unshared (List.nodup_cons.mp hnd).2 hr hlt hgap h hl

/-- A listing by one key is one by another key, which differs at `x` only, exactly
when both put the other elements on the same sides of `x`. -/
theorem listing_rekey {key' : α → κ} (hl : Listing key (x::xs) listed)
    (hsame : ∀ s ∈ xs, key' s = key s) (hne : ∀ s ∈ xs, key s ≠ key x) :
    Listing key' (x::xs) listed ↔
      ∀ s ∈ xs, (key s < key x → key s ≤ key' x) ∧ (key x < key s → key' x ≤ key s) := by
  obtain ⟨pre,post,rfl,hrest⟩ := listing_remove hl
  have hmem : ∀ s, s ∈ pre ∨ s ∈ post ↔ s ∈ xs :=
    fun s => List.mem_append.symm.trans hrest.1.mem_iff
  obtain ⟨_,hback,hfront⟩ := List.pairwise_append.mp hl.2
  have hpre : ∀ s ∈ pre, key s < key x := fun s hs =>
    lt_of_le_of_ne (hfront s hs x List.mem_cons_self) (hne s ((hmem s).mp (Or.inl hs)))
  have hpost : ∀ s ∈ post, key x < key s := fun s hs =>
    lt_of_le_of_ne ((List.pairwise_cons.mp hback).1 s hs) (hne s ((hmem s).mp (Or.inr hs))).symm
  constructor
  · rintro ⟨_,hsorted⟩ s hs
    obtain ⟨_,hback',hfront'⟩ := List.pairwise_append.mp hsorted
    rw [← hsame s hs]
    rcases (hmem s).mpr hs with hm | hm
    · refine ⟨fun _ => hfront' s hm x List.mem_cons_self,fun hlt => ?_⟩
      rw [hsame s hs] at hlt ⊢
      exact absurd hlt (lt_asymm (hpre s hm))
    · refine ⟨fun hlt => ?_,fun _ => (List.pairwise_cons.mp hback').1 s hm⟩
      exact absurd hlt (lt_asymm (by rw [hsame s hs]; exact hpost s hm))
  · intro hsides
    have hkept : (pre++post).Pairwise (fun a b => key' a ≤ key' b) := by
      refine hrest.2.imp_of_mem (fun {a b} ha hb hab => ?_)
      rwa [hsame a (hrest.1.mem_iff.mp ha),hsame b (hrest.1.mem_iff.mp hb)]
    obtain ⟨hpre',hpost',hacross⟩ := List.pairwise_append.mp hkept
    have hup : ∀ s ∈ pre, key' s ≤ key' x := fun s hs => by
      have hs' := (hmem s).mp (Or.inl hs)
      rw [hsame s hs']
      exact (hsides s hs').1 (hpre s hs)
    have hdown : ∀ s ∈ post, key' x ≤ key' s := fun s hs => by
      have hs' := (hmem s).mp (Or.inr hs)
      rw [hsame s hs']
      exact (hsides s hs').2 (hpost s hs)
    refine ⟨hl.1,List.pairwise_append.mpr ⟨hpre',List.pairwise_cons.mpr ⟨hdown,hpost'⟩,?_⟩⟩
    intro a ha b hb
    rcases List.mem_cons.mp hb with rfl | hb
    · exact hup a ha
    · exact hacross a ha b hb

/-- A listing of images comes from a listing of the elements. -/
theorem listing_image {β : Type*} {f : α → β} {g : β → κ} {images : List β}
    (h : Listing g (xs.map f) images) :
    ∃ listed, images = listed.map f ∧ Listing (g ∘ f) xs listed := by
  have hself : List.Forall₂ (fun a b => a = f b) (xs.map f) xs := by
    rw [List.forall₂_map_left_iff,List.forall₂_same]
    exact fun _ _ => rfl
  obtain ⟨listed,himage,hperm⟩ := List.perm_comp_forall₂ h.1 hself
  have hall : List.Forall₂ Eq images (listed.map f) := List.forall₂_map_right_iff.mpr himage
  have heq : images = listed.map f := by
    rwa [List.forall₂_eq_eq_eq] at hall
  refine ⟨listed,heq,hperm,?_⟩
  have hsorted := h.2
  rw [heq,List.pairwise_map] at hsorted
  exact hsorted

end BlockDocs.SortedListing

