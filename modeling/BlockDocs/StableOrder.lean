import Mathlib.Data.List.Sort
import Mathlib.Data.List.TakeWhile
import Mathlib.Tactic

/-!
# Sorting keeps the order of the rest

Sorting by insertion and leaving out elements commute. What is done to some elements of a
collection does not change the order of the others, even where keys repeat, and an element
with a key of its own stands where its key puts it.
-/

set_option autoImplicit false

namespace BlockDocs.StableOrder

section Sorting

variable {α : Type*} {r s : α → α → Prop} [DecidableRel r] [DecidableRel s]
variable {a : α} {l : List α}

theorem orderedInsert_first (h : ∀ b ∈ l, r a b) : l.orderedInsert r a = a::l := by
  cases l with
  | nil => rfl
  | cons b l => exact List.orderedInsert_cons_of_le r l (h b List.mem_cons_self)

theorem filter_orderedInsert [IsTrans α r] (p : α → Bool) (hl : l.Pairwise r) :
    (l.orderedInsert r a).filter p =
      if p a then (l.filter p).orderedInsert r a else l.filter p := by
  induction l with
  | nil => by_cases ha : p a <;> simp [ha]
  | cons b l ih =>
    obtain ⟨hb,hrest⟩ := List.pairwise_cons.mp hl
    by_cases hab : r a b
    · rw [List.orderedInsert_cons_of_le r l hab]
      by_cases ha : p a
      · have hall : ∀ c ∈ (b::l).filter p, r a c := by
          intro c hc
          rcases List.mem_cons.mp (List.mem_filter.mp hc).1 with rfl | hc
          · exact hab
          · exact trans_of r hab (hb c hc)
        rw [List.filter_cons_of_pos ha,if_pos ha,orderedInsert_first hall]
      · rw [List.filter_cons_of_neg ha,if_neg ha]
    · rw [List.orderedInsert_of_not_le r l hab]
      by_cases hp : p b
      · rw [List.filter_cons_of_pos hp,List.filter_cons_of_pos hp,ih hrest]
        split
        · rw [List.orderedInsert_of_not_le r _ hab]
        · rfl
      · rw [List.filter_cons_of_neg hp,List.filter_cons_of_neg hp,ih hrest]

theorem filter_insertionSort [Std.Total r] [IsTrans α r] (p : α → Bool) (l : List α) :
    (l.insertionSort r).filter p = (l.filter p).insertionSort r := by
  induction l with
  | nil => rfl
  | cons a l ih =>
    rw [List.insertionSort_cons,filter_orderedInsert p (List.pairwise_insertionSort r l),ih]
    by_cases ha : p a
    · rw [if_pos ha,List.filter_cons_of_pos ha,List.insertionSort_cons]
    · rw [if_neg ha,List.filter_cons_of_neg ha]

/-- Orders that agree on the elements. -/
theorem insertionSort_congr (h : ∀ a ∈ l, ∀ b ∈ l, r a b ↔ s a b) :
    l.insertionSort r = l.insertionSort s := by
  have hmap := List.map_insertionSort r s id l h
  rwa [List.map_id,List.map_id] at hmap

end Sorting

/-! ## Two collections in one -/

variable {α κ : Type*}

structure Interleaved (whole xs ys : List α) : Prop where
  perm : whole.Perm (xs++ys)
  left : xs.Sublist whole
  right : ys.Sublist whole

theorem interleaved_filter (p : α → Bool) (l : List α) :
    Interleaved l (l.filter p) (l.filter (fun a => !p a)) where
  perm := (List.filter_append_perm p l).symm
  left := List.filter_sublist
  right := List.filter_sublist

/-! ## One element more -/

variable {x a : α} {l pre post whole : List α}

section Keys

variable [LinearOrder κ] {key : α → κ}

/-- The key of the last element and that of the first one say enough. -/
theorem below_of_last {k : κ} (hsorted : (pre++post).Pairwise (fun a b => key a ≤ key b))
    (hlast : ∀ r ∈ pre.getLast?.map key, r < k) : ∀ a ∈ pre, key a < k := by
  intro b hb
  obtain ⟨front,a,rfl⟩ := (List.eq_nil_or_concat' pre).resolve_left (List.ne_nil_of_mem hb)
  have ha : key a < k := hlast (key a) (by simp)
  rcases List.mem_append.mp hb with hb | hb
  · have hle := (List.pairwise_append.mp (List.pairwise_append.mp hsorted).1).2.2 b hb
    exact lt_of_le_of_lt (hle a List.mem_cons_self) ha
  · exact List.mem_singleton.mp hb ▸ ha

theorem above_of_first {k : κ} (hsorted : (pre++post).Pairwise (fun a b => key a ≤ key b))
    (hfirst : ∀ r ∈ post.head?.map key, k < r) : ∀ b ∈ post, k < key b := by
  intro b hb
  cases post with
  | nil => cases hb
  | cons a post =>
    have ha : k < key a := hfirst (key a) rfl
    rcases List.mem_cons.mp hb with rfl | hb
    · exact ha
    · have hle := (List.pairwise_cons.mp (List.pairwise_append.mp hsorted).2.1).1
      exact lt_of_lt_of_le ha (hle b hb)

end Keys

variable [DecidableEq α]

def insertBehind (x : α) (anchor : Option α) (l : List α) : List α :=
  match anchor with
  | none => x::l
  | some a =>
    match l.dropWhile (· ≠ a) with
    | [] => l++[x]
    | b::rest => l.takeWhile (· ≠ a)++b::x::rest

theorem insertBehind_absent (h : a ∉ l) : insertBehind x (some a) l = l++[x] := by
  have hdrop : l.dropWhile (· ≠ a) = [] := by
    rw [List.dropWhile_eq_nil_iff]
    intro b hb
    exact decide_eq_true (fun heq => h (heq ▸ hb))
  simp only [insertBehind,hdrop]

theorem insertBehind_split (h : a ∉ pre) :
    insertBehind x (some a) (pre++a::post) = pre++a::x::post := by
  have hpre : ∀ b ∈ pre, decide (b ≠ a) = true := by
    intro b hb
    exact decide_eq_true (fun heq => h (heq ▸ hb))
  have hdrop : (pre++a::post).dropWhile (· ≠ a) = a::post := by
    rw [List.dropWhile_append_of_pos hpre]
    exact List.dropWhile_cons_of_neg (by simp)
  have htake : (pre++a::post).takeWhile (· ≠ a) = pre := by
    rw [List.takeWhile_append_of_pos hpre,List.takeWhile_cons_of_neg (by simp),List.append_nil]
  simp only [insertBehind,hdrop,htake]

variable [LinearOrder κ] {key : α → κ}

/-- A key between those of the others says where an element stands. -/
theorem placed_between (hsorted : whole.Pairwise (fun a b => key a ≤ key b))
    (hone : whole.Nodup) (hx : x ∈ whole) (hothers : whole.filter (· ≠ x) = pre++post)
    (hpre : ∀ a ∈ pre, key a < key x) (hpost : ∀ b ∈ post, key x < key b) :
    whole = pre++x::post := by
  obtain ⟨before,behind,rfl⟩ := List.append_of_mem hx
  have hnodup := List.nodup_middle.mp hone
  obtain ⟨hnew,_⟩ := List.nodup_cons.mp hnodup
  obtain ⟨_,htail,hbefore⟩ := List.pairwise_append.mp hsorted
  have hbehind := (List.pairwise_cons.mp htail).1
  have hrest : before++behind = pre++post := by
    rw [← hothers,List.filter_append,List.filter_cons_of_neg (by simp),← List.filter_append]
    refine (List.filter_eq_self.mpr ?_).symm
    intro b hb
    exact decide_eq_true (fun heq : b = x => hnew (heq ▸ hb))
  rcases List.append_eq_append_iff.mp hrest with ⟨more,hpre',rfl⟩ | ⟨more,rfl,hpost'⟩
  · cases more with
    | nil => rw [hpre',List.append_nil,List.nil_append]
    | cons b more =>
      -- an element behind `x` that is one of those before it
      have hb : b ∈ pre := by simp [hpre']
      exact absurd (hpre b hb) (not_lt.mpr (hbehind b (by simp)))
  · cases more with
    | nil => rw [hpost',List.append_nil,List.nil_append]
    | cons b more =>
      have hb : b ∈ post := by simp [hpost']
      exact absurd (hpost b hb) (not_lt.mpr (hbefore b (by simp) x List.mem_cons_self))

end BlockDocs.StableOrder
