import Mathlib.Algebra.Order.Floor.Semifield
import BlockDocs.LexoRank

/-!
# Ranks spread through the alphabet

`evenly_spaced` answers one character for each sibling. There is always such a character,
and there are as many ranks as asked for; they are different as long as there are no more
siblings than characters.
-/

set_option autoImplicit false

namespace BlockDocs.EvenRanks
open BlockDocs.LexoRank

/-- The index of the character at place `i`, `int` being the floor of the exact share. -/
def spacedIndex (count : ℤ) (i : ℕ) : ℕ :=
  let step : ℚ := base/(count+1)
  ⌊step*(i+1)⌋₊

/-- `none` is the `IndexError` of an index past the alphabet. -/
def evenlySpaced (count : ℤ) : Option (List Rank) :=
  if count ≤ 0 then some []
  else if count = 1 then some [defaultSeed]
  else (List.range count.toNat).mapM fun i => (alphabet[spacedIndex count i]?).map fun c => [c]

def reassigned {α : Type} (children : List α) (ranks : List Rank) : List (α × Rank) :=
  children.zip ranks

structure Rebalances (count : ℕ) (ranks : List Rank) : Prop where
  length : ranks.length = count
  increasing : ranks.Pairwise (· < ·)
  ordered : ∀ {α : Type} (children : List α), children.length = count →
    (reassigned children ranks).map Prod.fst = children ∧
      (reassigned children ranks).Pairwise fun a b => a.2 < b.2
  unique : ∀ {α : Type} (children : List α), children.length = count →
    ((reassigned children ranks).map Prod.snd).Nodup

variable {n i : ℕ} {ranks : List Rank}

theorem spacedIndex_eq (n i : ℕ) : spacedIndex n i = 36*(i+1)/(n+1) := by
  have hbase : (base : ℚ) = 36 := by norm_num [base,alphabet]
  have hshare : ((base : ℚ)/((n : ℤ)+1))*(i+1) = ((36*(i+1) : ℕ) : ℚ)/((n+1 : ℕ) : ℚ) := by
    rw [hbase]
    push_cast
    ring
  change ⌊((base : ℚ)/((n : ℤ)+1))*(i+1)⌋₊ = _
  rw [hshare]
  rw [Nat.floor_div_natCast,Nat.floor_natCast]

theorem spacedIndex_lt (hi : i < n) : spacedIndex n i < alphabet.length := by
  rw [spacedIndex_eq]
  apply Nat.div_lt_of_lt_mul
  change 36*(i+1) < (n+1)*36
  omega

/-- Up to as many places as there are characters each place has a character of its own. -/
theorem spacedIndex_succ (hn : n ≤ 36) (hi : i+1 < n) :
    spacedIndex n i < spacedIndex n (i+1) := by
  rw [spacedIndex_eq,spacedIndex_eq]
  rcases Nat.lt_or_eq_of_le hn with hlt | rfl
  · -- a share is one character or more
    have hstep : 36*(i+1)+(n+1) ≤ 36*(i+1+1) := by omega
    calc 36*(i+1)/(n+1) < 36*(i+1)/(n+1)+1 := Nat.lt_succ_self _
      _ = (36*(i+1)+(n+1))/(n+1) := (Nat.add_div_right _ (Nat.succ_pos n)).symm
      _ ≤ 36*(i+1+1)/(n+1) := Nat.div_le_div_right hstep
  · omega

theorem spacedIndex_strictMono (hn : n ≤ 36) {j : ℕ} (hij : i < j) (hj : j < n) :
    spacedIndex n i < spacedIndex n j := by
  induction j with
  | zero => omega
  | succ j ih =>
    have hnext := spacedIndex_succ hn hj
    rcases Nat.lt_or_eq_of_le (Nat.le_of_lt_succ hij) with hlt | rfl
    · exact (ih hlt (by omega)).trans hnext
    · exact hnext

/-! ## What is answered -/

def spaced (n i : ℕ) : Rank := [charAt (spacedIndex n i)]

theorem alphabet_at (hi : i < alphabet.length) : alphabet[i]? = some (charAt i) := by
  rw [charAt,List.getD_eq_getElem?_getD,List.getElem?_eq_getElem hi]
  rfl

theorem mapM_some {α β : Type} {f : α → Option β} {g : α → β} (l : List α)
    (h : ∀ a ∈ l, f a = some (g a)) : l.mapM f = some (l.map g) := by
  induction l with
  | nil => rfl
  | cons a l ih =>
    obtain ⟨ha,hl⟩ := List.forall_mem_cons.mp h
    rw [List.mapM_cons,ha,ih hl]
    rfl

/-- No place is past the alphabet. -/
theorem evenlySpaced_many (hn : 2 ≤ n) :
    evenlySpaced n = some ((List.range n).map (spaced n)) := by
  have h0 : ¬(n : ℤ) ≤ 0 := by omega
  have h1 : ¬(n : ℤ) = 1 := by omega
  rw [evenlySpaced,if_neg h0,if_neg h1,Int.toNat_natCast]
  apply mapM_some
  intro i hi
  rw [alphabet_at (spacedIndex_lt (List.mem_range.mp hi))]
  rfl

theorem evenlySpaced_length (n : ℕ) : ∃ ranks, evenlySpaced n = some ranks ∧
    ranks.length = n := by
  rcases Nat.lt_or_ge n 2 with hlt | hge
  · interval_cases n
    · exact ⟨[],rfl,rfl⟩
    · exact ⟨[defaultSeed],rfl,rfl⟩
  · exact ⟨_,evenlySpaced_many hge,by simp⟩

theorem charAt_lt {j : ℕ} (hij : i < j) (hj : j < base) : charAt i < charAt j :=
  charValue_lt (charValue_charAt (by omega)) (charValue_charAt hj) hij

theorem spaced_increasing (hn : n ≤ 36) : ((List.range n).map (spaced n)).Pairwise (· < ·) := by
  rw [List.pairwise_map]
  apply List.Pairwise.imp_of_mem _ List.pairwise_lt_range
  intro i j _ hj hij
  have hjn := List.mem_range.mp hj
  apply cons_lt_of_lt
  exact charAt_lt (spacedIndex_strictMono hn hij hjn) (spacedIndex_lt hjn)

theorem evenlySpaced_increasing (hn : n ≤ 36) (h : evenlySpaced n = some ranks) :
    ranks.Pairwise (· < ·) := by
  rcases Nat.lt_or_ge n 2 with hlt | hge
  · interval_cases n
    · cases h
      exact List.Pairwise.nil
    · cases h
      exact List.pairwise_singleton _ _
  · cases (evenlySpaced_many hge).symm.trans h
    exact spaced_increasing hn

/-- There are no more different ranks of one character than there are characters. -/
theorem length_le_of_nodup (h : ranks.Nodup) (hone : ∀ r ∈ ranks, ∃ c ∈ alphabet, r = [c]) :
    ranks.length ≤ 36 := by
  have hsub : ranks ⊆ alphabet.map fun c => [c] := by
    intro r hr
    obtain ⟨c,hc,rfl⟩ := hone r hr
    exact List.mem_map.mpr ⟨c,hc,rfl⟩
  have hle := (h.subperm hsub).length_le
  rw [List.length_map] at hle
  exact hle

theorem evenlySpaced_repeats (hn : 36 < n) (h : evenlySpaced n = some ranks) :
    ¬ranks.Nodup := by
  intro hnodup
  cases (evenlySpaced_many (by omega)).symm.trans h
  have hle := length_le_of_nodup hnodup fun r hr => by
    obtain ⟨i,hi,rfl⟩ := List.mem_map.mp hr
    have hlt := spacedIndex_lt (List.mem_range.mp hi)
    exact ⟨_,mem_of_charValue (charValue_charAt hlt),rfl⟩
  rw [List.length_map,List.length_range] at hle
  omega

/-! ## Giving the ranks to the children -/

theorem reassigned_ordered {α : Type} {children : List α}
    (hlen : children.length = ranks.length) (h : ranks.Pairwise (· < ·)) :
    (reassigned children ranks).map Prod.fst = children ∧
      (reassigned children ranks).Pairwise fun a b => a.2 < b.2 := by
  constructor
  · exact List.map_fst_zip (le_of_eq hlen)
  · rw [← List.pairwise_map (f := Prod.snd)]
    unfold reassigned
    rw [List.map_snd_zip (le_of_eq hlen.symm)]
    exact h

theorem reassigned_unique {α : Type} {children : List α}
    (hlen : children.length = ranks.length) (h : ranks.Pairwise (· < ·)) :
    ((reassigned children ranks).map Prod.snd).Nodup := by
  unfold reassigned
  rw [List.map_snd_zip (le_of_eq hlen.symm)]
  exact h.imp ne_of_lt

theorem rebalances_of_increasing (hlen : ranks.length = n) (h : ranks.Pairwise (· < ·)) :
    Rebalances n ranks where
  length := hlen
  increasing := h
  ordered := fun _ hc => reassigned_ordered (hc.trans hlen.symm) h
  unique := fun _ hc => reassigned_unique (hc.trans hlen.symm) h

/-- The ranks for any number of siblings serve to rebalance them exactly when there are at
most as many as the alphabet has characters. -/
theorem evenlySpaced_rebalances_iff (n : ℕ) :
    (∃ ranks, evenlySpaced n = some ranks ∧ Rebalances n ranks) ↔ n ≤ 36 := by
  constructor
  · rintro ⟨ranks,h,hr⟩
    by_contra hn
    exact evenlySpaced_repeats (by omega) h (hr.increasing.imp ne_of_lt)
  · intro hn
    obtain ⟨ranks,h,hlen⟩ := evenlySpaced_length n
    exact ⟨ranks,h,rebalances_of_increasing hlen (evenlySpaced_increasing hn h)⟩

/-- Of thirty-seven siblings the nineteenth and the twentieth get the same rank. -/
theorem evenlySpaced_collides : ∃ ranks, evenlySpaced 37 = some ranks ∧
    ranks[18]? = some ['i'] ∧ ranks[19]? = some ['i'] ∧ ¬ranks.Pairwise (· < ·) := by
  have h : evenlySpaced (37 : ℕ) = some ((List.range 37).map (spaced 37)) :=
    evenlySpaced_many (by omega)
  have hat : ∀ i, i < 37 → 36*(i+1)/38 = 18 →
      ((List.range 37).map (spaced 37))[i]? = some ['i'] := by
    intro i hi heq
    rw [List.getElem?_map,List.getElem?_range hi,Option.map_some,spaced,spacedIndex_eq,heq]
    rfl
  refine ⟨_,h,hat 18 (by decide) rfl,hat 19 (by decide) rfl,fun hinc => ?_⟩
  exact evenlySpaced_repeats (by decide) h (hinc.imp ne_of_lt)

end BlockDocs.EvenRanks
