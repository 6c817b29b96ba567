import Mathlib.Data.Char
import Mathlib.Data.List.Lex
import Mathlib.Tactic

/-!
# Fractional ranks of the api server

Ranks are strings, compared by code point. `midpoint` never looks at the
other siblings of a block, so the order facts below carry every result about
positions. The one rank without room below it is the all-floor rank, where
`_before` answers a longer string and hence a greater one.
-/

set_option autoImplicit false

namespace BlockDocs.LexoRank

abbrev Rank := List Char

def alphabet : List Char :=
  ['0','1','2','3','4','5','6','7','8','9','a','b','c','d','e','f','g','h','i','j','k','l',
   'm','n','o','p','q','r','s','t','u','v','w','x','y','z']

def base : ℕ := alphabet.length

def minChar : Char := '0'

def midChar : Char := 'i'

def defaultSeed : Rank := ['m']

inductive RankError where
  | outOfAlphabet (c : Char)
  | leftNotBelow (left right : Rank)
  | identicalAfterPadding
  deriving DecidableEq, Repr

def quoted (s : Rank) : String := "'" ++ String.ofList s ++ "'"

def RankError.message : RankError → String
  | outOfAlphabet c => "LexoRank character out of alphabet: " ++ quoted [c]
  | leftNotBelow left right =>
    "LexoRank midpoint: left " ++ quoted left ++ " >= right " ++ quoted right
  | identicalAfterPadding => "LexoRank midpoint: identical inputs after padding"

def charValue (c : Char) : Except RankError ℕ :=
  match alphabet.idxOf? c with
  | some i => .ok i
  | none => .error (.outOfAlphabet c)

def charAt (i : ℕ) : Char := alphabet.getD i minChar

def pad (s : Rank) (length : ℕ) : Rank :=
  if length ≤ s.length then s else s++List.replicate (length-s.length) minChar

def after (left : Rank) : Rank := left++[midChar]

def before : Rank → Except RankError Rank
  | [] => .ok [midChar]
  | c::right => do
    let cv ← charValue c
    if cv = 0 then
      let rest ← before right
      return c::rest
    else return [charAt (cv/2)]

def between : Rank → Rank → Except RankError Rank
  | ac::a, bc::b => do
    let av ← charValue ac
    let bv ← charValue bc
    if av = bv then
      let rest ← between a b
      return ac::rest
    else if bv-av > 1 then return [charAt ((av+bv)/2)]
    -- no character fits in this slot: keep the left one and go above its tail
    else return ac::after a
  | _, _ => .error .identicalAfterPadding

def midpoint : Option Rank → Option Rank → Except RankError Rank
  | none, none => .ok defaultSeed
  | none, some right => before right
  | some left, none => .ok (after left)
  | some left, some right =>
    if right ≤ left then .error (.leftNotBelow left right)
    else
      let length := max left.length right.length
      between (pad left length) (pad right length)

theorem alphabet_sorted : alphabet.Pairwise (· < ·) := by decide

theorem charValue_eq {c : Char} {i : ℕ} (h : charValue c = .ok i) :
    ∃ hi : i < alphabet.length, alphabet[i] = c := by
  unfold charValue at h
  split at h
  · next j hj =>
    cases Except.ok.inj h
    obtain ⟨hi,hc,_⟩ := List.idxOf?_eq_some_iff.mp hj
    exact ⟨hi,hc⟩
  · exact absurd h (by simp)

theorem mem_of_charValue {c : Char} {i : ℕ} (h : charValue c = .ok i) : c ∈ alphabet := by
  obtain ⟨hi,hc⟩ := charValue_eq h
  exact hc ▸ List.getElem_mem hi

theorem charValue_of_mem {c : Char} (h : c ∈ alphabet) : ∃ i, charValue c = .ok i := by
  unfold charValue
  split
  · next i _ => exact ⟨i,rfl⟩
  · next hnone => exact absurd h (List.idxOf?_eq_none_iff.mp hnone)

theorem charValue_injective {c d : Char} {i : ℕ} (hc : charValue c = .ok i)
    (hd : charValue d = .ok i) : c = d := by
  obtain ⟨_,h⟩ := charValue_eq hc
  obtain ⟨_,k⟩ := charValue_eq hd
  exact h.symm.trans k

theorem charValue_lt {c d : Char} {i j : ℕ} (hc : charValue c = .ok i)
    (hd : charValue d = .ok j) (hij : i < j) : c < d := by
  obtain ⟨hi,h⟩ := charValue_eq hc
  obtain ⟨hj,k⟩ := charValue_eq hd
  rw [← h,← k]
  exact List.pairwise_iff_getElem.mp alphabet_sorted i j hi hj hij

theorem charValue_charAt {i : ℕ} (hi : i < base) : charValue (charAt i) = .ok i := by
  have h : ∀ j < base, charValue (charAt j) = .ok j := by decide
  exact h i hi

theorem charValue_lt_base {c : Char} {i : ℕ} (h : charValue c = .ok i) : i < base :=
  (charValue_eq h).1

theorem charValue_min : charValue minChar = .ok 0 := by decide

theorem charValue_eq_zero {c : Char} : charValue c = .ok 0 ↔ c = minChar := by
  constructor
  · exact fun h => charValue_injective h charValue_min
  · rintro rfl
    exact charValue_min

theorem charValue_order {c d : Char} {i j : ℕ} (hc : charValue c = .ok i)
    (hd : charValue d = .ok j) (hcd : c < d) : i < j := by
  rcases lt_trichotomy i j with h | h | h
  · exact h
  · subst h
    exact absurd (charValue_injective hc hd) (ne_of_lt hcd)
  · exact absurd (charValue_lt hd hc h) (not_lt_of_gt hcd)

theorem lt_append_cons (s : Rank) (c : Char) (t : Rank) : s < s++c::t := by
  have h : s++[] < s++c::t := List.append_left_lt (List.nil_lt_cons c t)
  rwa [List.append_nil] at h

theorem cons_lt_of_lt {c d : Char} (h : c < d) (s t : Rank) : c::s < d::t :=
  List.cons_lt_cons_iff.mpr (Or.inl h)

theorem cons_lt_same (c : Char) {s t : Rank} (h : s < t) : c::s < c::t :=
  List.cons_lt_cons_iff.mpr (Or.inr ⟨rfl,h⟩)

theorem after_gt (left : Rank) : left < after left := lt_append_cons left midChar []

theorem after_length (left : Rank) : (after left).length = left.length+1 := by simp [after]

/-! ## Below the first sibling -/

def AllFloor (s : Rank) : Prop := ∀ c ∈ s, c = minChar

instance (s : Rank) : Decidable (AllFloor s) := List.decidableBAll (· = minChar) s

theorem before_floor (right : Rank) (h : AllFloor right) : before right = .ok (after right) := by
  induction right with
  | nil => rfl
  | cons c right ih =>
    obtain ⟨hc,hr⟩ := List.forall_mem_cons.mp h
    subst hc
    simp [before,charValue_min,ih hr,after,bind,Except.bind,pure,Except.pure]

theorem before_cons {c : Char} {right m : Rank} (h : before (c::right) = .ok m) :
    ∃ cv, charValue c = .ok cv ∧
      ((cv = 0 ∧ ∃ rest, before right = .ok rest ∧ m = c::rest) ∨
        (cv ≠ 0 ∧ m = [charAt (cv/2)])) := by
  simp only [before,bind,Except.bind,pure,Except.pure] at h
  split at h
  · cases h
  · next cv hv =>
    refine ⟨cv,hv,?_⟩
    split at h
    · next h0 =>
      cases hb : before right with
      | error e => simp [hb] at h
      | ok rest =>
        simp only [hb,Except.ok.injEq] at h
        exact Or.inl ⟨h0,rest,rfl,h.symm⟩
    · next h0 => exact Or.inr ⟨h0,(Except.ok.inj h).symm⟩

/-- A leading character of value zero that does not end the search. -/
theorem not_floor_tail {c : Char} {right : Rank} (hc : charValue c = .ok 0)
    (hf : ¬ AllFloor (c::right)) : ¬ AllFloor right :=
  fun hr => hf (List.forall_mem_cons.mpr ⟨charValue_eq_zero.mp hc,hr⟩)

theorem before_lt {right m : Rank} (h : before right = .ok m) (hf : ¬ AllFloor right) :
    m < right := by
  induction right generalizing m with
  | nil => exact absurd (fun c hc => by simp at hc) hf
  | cons c right ih =>
    obtain ⟨cv,hv,⟨rfl,rest,hb,rfl⟩ | ⟨h0,rfl⟩⟩ := before_cons h
    · exact cons_lt_same c (ih hb (not_floor_tail hv hf))
    · have hb := charValue_lt_base hv
      exact cons_lt_of_lt (charValue_lt (charValue_charAt (by omega)) hv (by omega)) _ _

theorem before_floor_gt {right m : Rank} (h : before right = .ok m) (hf : AllFloor right) :
    m = after right := by
  rw [before_floor right hf] at h
  exact (Except.ok.inj h).symm

theorem before_lt_iff {right m : Rank} (h : before right = .ok m) :
    m < right ↔ ¬ AllFloor right := by
  constructor
  · intro hm hf
    rw [before_floor_gt h hf] at hm
    exact lt_asymm hm (after_gt right)
  · exact before_lt h

theorem before_length {right m : Rank} (h : before right = .ok m) (hf : ¬ AllFloor right) :
    m.length ≤ right.length := by
  induction right generalizing m with
  | nil => exact absurd (fun c hc => by simp at hc) hf
  | cons c right ih =>
    obtain ⟨cv,hv,⟨rfl,rest,hb,rfl⟩ | ⟨_,rfl⟩⟩ := before_cons h
    · have hr := ih hb (not_floor_tail hv hf)
      simpa using hr
    · simp

/-! ## Between two siblings -/

theorem pad_nil (n : ℕ) : pad [] n = List.replicate n minChar := by
  cases n <;> simp [pad]

theorem pad_cons (c : Char) (s : Rank) (n : ℕ) : pad (c::s) (n+1) = c::pad s n := by
  by_cases h : n ≤ s.length <;> simp [pad,h]

/-- The padding character stands for the end of the string. -/
theorem pad_succ (s : Rank) (n : ℕ) : pad s (n+1) = s.headD minChar::pad s.tail n := by
  cases s with
  | nil => simp [pad_nil,List.replicate_succ]
  | cons c s => exact pad_cons c s n

theorem pad_length (s : Rank) (n : ℕ) (h : s.length ≤ n) : (pad s n).length = n := by
  unfold pad
  split
  · omega
  · simp only [List.length_append,List.length_replicate]
    omega

theorem pad_extends (s : Rank) (n : ℕ) : ∃ t, pad s n = s++t := by
  unfold pad
  split
  · exact ⟨[],by simp⟩
  · exact ⟨_,rfl⟩

theorem after_pad_gt (s : Rank) (n : ℕ) : s < after (pad s n) := by
  obtain ⟨t,ht⟩ := pad_extends s n
  rw [ht,after,List.append_assoc]
  cases t with
  | nil => exact lt_append_cons s midChar []
  | cons c t => exact lt_append_cons s c _

theorem between_self (s m : Rank) : between s s ≠ .ok m := by
  induction s generalizing m with
  | nil => simp [between]
  | cons c s ih =>
    intro h
    simp only [between,bind,Except.bind,pure,Except.pure] at h
    cases hc : charValue c with
    | error e => simp [hc] at h
    | ok cv =>
      cases hs : between s s with
      | error e => simp [hc,hs] at h
      | ok rest => exact ih rest hs

theorem between_cons {ac bc : Char} {a b m : Rank} (h : between (ac::a) (bc::b) = .ok m) :
    ∃ av bv, charValue ac = .ok av ∧ charValue bc = .ok bv ∧
      ((ac = bc ∧ ∃ rest, between a b = .ok rest ∧ m = ac::rest) ∨
       (bv-av > 1 ∧ m = [charAt ((av+bv)/2)]) ∨
       (av ≠ bv ∧ ¬ bv-av > 1 ∧ m = ac::after a)) := by
  simp only [between,bind,Except.bind,pure,Except.pure] at h
  cases ha : charValue ac with
  | error e => simp [ha] at h
  | ok av =>
    cases hb : charValue bc with
    | error e => simp [ha,hb] at h
    | ok bv =>
      refine ⟨av,bv,rfl,rfl,?_⟩
      simp only [ha,hb] at h
      split at h
      · next heq =>
        subst heq
        cases hr : between a b with
        | error e => simp [hr] at h
        | ok rest =>
          simp only [hr,Except.ok.injEq] at h
          exact Or.inl ⟨charValue_injective ha hb,rest,rfl,h.symm⟩
      · next hne =>
        split at h
        · next hgap => exact Or.inr (Or.inl ⟨hgap,(Except.ok.inj h).symm⟩)
        · next hgap => exact Or.inr (Or.inr ⟨hne,hgap,(Except.ok.inj h).symm⟩)

/-- One slot of `midpoint`: the left string may already be exhausted there,
in which case the padding character stands for it. -/
theorem between_step {l r m : Rank} {c : Char} {k : ℕ} (hlt : l < c::r)
    (h : between (pad l (k+1)) (pad (c::r) (k+1)) = .ok m) :
    ∃ av cv, charValue (l.headD minChar) = .ok av ∧ charValue c = .ok cv ∧
      ((l.headD minChar = c ∧ l.tail < r ∧
          ∃ rest, between (pad l.tail k) (pad r k) = .ok rest ∧ m = c::rest) ∨
       (av+1 < cv ∧ m = [charAt ((av+cv)/2)]) ∨
       (cv = av+1 ∧ m = l.headD minChar::after (pad l.tail k))) := by
  rw [pad_succ l,pad_cons] at h
  obtain ⟨av,cv,ha,hc,hcase⟩ := between_cons h
  refine ⟨av,cv,ha,hc,?_⟩
  have hle : av ≤ cv := by
    cases l with
    | nil =>
      have : av = 0 := Except.ok.inj (ha.symm.trans charValue_min)
      omega
    | cons a l =>
      rcases List.cons_lt_cons_iff.mp hlt with h | ⟨h,_⟩
      · exact le_of_lt (charValue_order ha hc h)
      · subst h
        exact le_of_eq (Except.ok.inj (ha.symm.trans hc))
  rcases hcase with ⟨heq,rest,hr,hm⟩ | ⟨hgap,hm⟩ | ⟨hne,hgap,hm⟩
  · refine Or.inl ⟨heq,?_,rest,hr,heq ▸ hm⟩
    cases l with
    | nil =>
      cases r with
      | nil => exact absurd hr (between_self _ _)
      | cons d r => exact List.nil_lt_cons d r
    | cons a l =>
      rcases List.cons_lt_cons_iff.mp hlt with h | ⟨_,h⟩
      · exact absurd heq (ne_of_lt h)
      · exact h
  · exact Or.inr (Or.inl ⟨by omega,hm⟩)
  · exact Or.inr (Or.inr ⟨by omega,hm⟩)

theorem between_bounds {l r m : Rank} {n : ℕ} (hl : l.length ≤ n) (hr : r.length ≤ n)
    (hlt : l < r) (h : between (pad l n) (pad r n) = .ok m) : l < m ∧ m < r := by
  induction r generalizing l m n with
  | nil => exact absurd hlt (List.not_lt_nil l)
  | cons c r ih =>
    obtain ⟨k,rfl⟩ : ∃ k, n = k+1 := ⟨n-1,by simp at hr; omega⟩
    obtain ⟨av,cv,ha,hc,hcase⟩ := between_step hlt h
    have hcb := charValue_lt_base hc
    rcases hcase with ⟨heq,htail,rest,hrest,rfl⟩ | ⟨hgap,rfl⟩ | ⟨hgap,rfl⟩
    · have htl : l.tail.length ≤ k := by simp; omega
      obtain ⟨h1,h2⟩ := ih htl (by simpa using hr) htail hrest
      refine ⟨?_,cons_lt_same c h2⟩
      cases l with
      | nil => exact List.nil_lt_cons _ _
      | cons a l =>
        cases heq
        exact cons_lt_same _ h1
    · have hm : charValue (charAt ((av+cv)/2)) = .ok ((av+cv)/2) := charValue_charAt (by omega)
      refine ⟨?_,cons_lt_of_lt (charValue_lt hm hc (by omega)) _ _⟩
      cases l with
      | nil => exact List.nil_lt_cons _ _
      | cons a l => exact cons_lt_of_lt (charValue_lt ha hm (by omega)) _ _
    · refine ⟨?_,cons_lt_of_lt (charValue_lt ha hc (by omega)) _ _⟩
      cases l with
      | nil => exact List.nil_lt_cons _ _
      | cons a l => exact cons_lt_same a (after_pad_gt l k)

/-- The padded strings part at neighbouring characters, so that the rank
between them must grow past both. -/
def Tight (n : ℕ) (l r : Rank) : Prop :=
  ∃ p a b x y i, (∀ c ∈ p, c ∈ alphabet) ∧ pad l n = p++a::x ∧ pad r n = p++b::y ∧
    charValue a = .ok i ∧ charValue b = .ok (i+1)

/-- A common start is copied. -/
theorem between_start {p x y m : Rank} (hp : ∀ c ∈ p, c ∈ alphabet)
    (h : between x y = .ok m) : between (p++x) (p++y) = .ok (p++m) := by
  induction p with
  | nil => exact h
  | cons c p ih =>
    obtain ⟨hc,hp⟩ := List.forall_mem_cons.mp hp
    obtain ⟨j,hj⟩ := charValue_of_mem hc
    simp [between,hj,ih hp,bind,Except.bind,pure,Except.pure]

theorem between_tight {p x y : Rank} {a b : Char} {i : ℕ} (hp : ∀ c ∈ p, c ∈ alphabet)
    (ha : charValue a = .ok i) (hb : charValue b = .ok (i+1)) :
    between (p++a::x) (p++b::y) = .ok (p++a::after x) := by
  apply between_start hp
  simp [between,ha,hb,bind,Except.bind,pure,Except.pure]

theorem between_length {l r m : Rank} {n : ℕ} (hl : l.length ≤ n) (hr : r.length ≤ n)
    (hlt : l < r) (ht : ¬ Tight n l r) (h : between (pad l n) (pad r n) = .ok m) :
    m.length ≤ n := by
  induction r generalizing l m n with
  | nil => exact absurd hlt (List.not_lt_nil l)
  | cons c r ih =>
    obtain ⟨k,rfl⟩ : ∃ k, n = k+1 := ⟨n-1,by simp at hr; omega⟩
    obtain ⟨av,cv,ha,hc,hcase⟩ := between_step hlt h
    rcases hcase with ⟨heq,htail,rest,hrest,rfl⟩ | ⟨hgap,rfl⟩ | ⟨hgap,rfl⟩
    · have htl : l.tail.length ≤ k := by simp; omega
      have hnext : ¬ Tight k l.tail r := by
        rintro ⟨p,a,b,x,y,i,hp,h1,h2,h3,h4⟩
        apply ht
        refine ⟨c::p,a,b,x,y,i,?_,?_,?_,h3,h4⟩
        · exact List.forall_mem_cons.mpr ⟨mem_of_charValue hc,hp⟩
        · rw [pad_succ,h1,heq]; rfl
        · rw [pad_cons,h2]; rfl
      have hlen := ih htl (by simpa using hr) htail hnext hrest
      simpa using hlen
    · simp
    · have htight : Tight (k+1) l (c::r) :=
        ⟨[],l.headD minChar,c,pad l.tail k,pad r k,av,by simp,pad_succ l k,pad_cons c r k,ha,
          hgap ▸ hc⟩
      exact absurd htight ht

/-- Ranks in order are compared at their common length. -/
theorem midpoint_of_lt {l r : Rank} (h : l < r) : midpoint (some l) (some r) =
    between (pad l (max l.length r.length)) (pad r (max l.length r.length)) :=
  if_neg (not_le_of_gt h)

theorem midpoint_gt {l m : Rank} {right : Option Rank}
    (h : midpoint (some l) right = .ok m) : l < m := by
  cases right with
  | none =>
    cases Except.ok.inj h
    exact after_gt l
  | some r =>
    simp only [midpoint] at h
    split at h
    · exact absurd h (by simp)
    · next hlr =>
      exact (between_bounds (le_max_left _ _) (le_max_right _ _) (not_le.mp hlr) h).1

theorem midpoint_lt {l r m : Rank} (h : midpoint (some l) (some r) = .ok m) : m < r := by
  simp only [midpoint] at h
  split at h
  · exact absurd h (by simp)
  · next hlr =>
    exact (between_bounds (le_max_left _ _) (le_max_right _ _) (not_le.mp hlr) h).2

/-- What a column of `width` characters needs of the two neighbours. -/
def Room (width : ℕ) : Option Rank → Option Rank → Prop
  | none, none => True
  | none, some r => AllFloor r → r.length < width
  | some l, none => l.length < width
  | some l, some r => Tight (max l.length r.length) l r → max l.length r.length < width

theorem midpoint_fits_iff {width : ℕ} {left right : Option Rank} (hw : 1 ≤ width)
    (hl : ∀ l, left = some l → l.length ≤ width) (hr : ∀ r, right = some r → r.length ≤ width)
    (hlt : ∀ l r, left = some l → right = some r → l < r) :
    (∀ m, midpoint left right = .ok m → m.length ≤ width) ↔ Room width left right := by
  cases left with
  | none =>
    cases right with
    | none => simpa [Room,midpoint,defaultSeed] using hw
    | some r =>
      have hlen := hr r rfl
      by_cases hf : AllFloor r
      · simp only [midpoint,before_floor r hf,Except.ok.injEq,forall_eq',after_length,Room,hf,
          true_imp_iff]
        omega
      · simp only [Room,hf,false_imp_iff,iff_true]
        exact fun m hm => (before_length hm hf).trans hlen
  | some l =>
    cases right with
    | none =>
      simp only [midpoint,Except.ok.injEq,forall_eq',after_length,Room]
      omega
    | some r =>
      have hlr := hlt l r rfl rfl
      have hmax : max l.length r.length ≤ width := max_le (hl l rfl) (hr r rfl)
      have hll : l.length ≤ max l.length r.length := le_max_left _ _
      simp only [midpoint_of_lt hlr,Room]
      constructor
      · rintro h ⟨p,a,b,x,y,i,hp,h1,h2,h3,h4⟩
        have hlong := h _ (by rw [h1,h2]; exact between_tight hp h3 h4)
        have hpad := pad_length l _ hll
        rw [h1] at hpad
        simp only [List.length_append,List.length_cons,after_length] at hlong hpad
        omega
      · intro h m hm
        by_cases ht : Tight (max l.length r.length) l r
        · have hroom := h ht
          obtain ⟨p,a,b,x,y,i,hp,h1,h2,h3,h4⟩ := ht
          rw [h1,h2,between_tight hp h3 h4] at hm
          have hpad := pad_length l _ hll
          rw [h1] at hpad
          cases hm
          simp only [List.length_append,List.length_cons,after_length] at hpad ⊢
          omega
        · exact (between_length hll (le_max_right _ _) hlr ht hm).trans hmax

example : midpoint (some ['a']) (some ['b']) = .ok ['a','i'] := by decide

end BlockDocs.LexoRank
