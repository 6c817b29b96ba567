import BlockDocs.ClientRank

/-!
# Ranks strictly between their bounds

Padding makes two different strings equal exactly when one extends the other by
floor characters; `midpoint` has no other way to fail. A rank that it has made below
`right` parts from `right` at a smaller character, so the next one fits as well.
-/

set_option autoImplicit false

namespace BlockDocs.StrictRanks
open BlockDocs.LexoRank
open BlockDocs.ClientRank (Past)

def InAlphabet (s : Rank) : Prop := ∀ c ∈ s, c ∈ alphabet

instance (s : Rank) : Decidable (InAlphabet s) := List.decidableBAll (· ∈ alphabet) s

def FloorExtends (left right : Rank) : Prop :=
  ∃ k, 1 ≤ k ∧ right = left++List.replicate k minChar

variable {left right a b m : Rank} {c : Char} {n : ℕ}

theorem inAlphabet_cons (hc : c ∈ alphabet) (h : InAlphabet a) : InAlphabet (c::a) :=
  List.forall_mem_cons.mpr ⟨hc,h⟩

theorem inAlphabet_append (ha : InAlphabet a) (hb : InAlphabet b) : InAlphabet (a++b) := by
  intro c hc
  exact (List.mem_append.mp hc).elim (ha c) (hb c)

theorem inAlphabet_after (h : InAlphabet a) : InAlphabet (after a) :=
  inAlphabet_append h (inAlphabet_cons (by decide) nofun)

theorem inAlphabet_pad (h : InAlphabet a) (n : ℕ) : InAlphabet (pad a n) := by
  unfold pad
  split
  · exact h
  · refine inAlphabet_append h fun c hc => ?_
    rw [List.eq_of_mem_replicate hc]
    decide

theorem charAt_mem {i : ℕ} (h : i < base) : charAt i ∈ alphabet :=
  mem_of_charValue (charValue_charAt h)

theorem charAt_ne_min {i : ℕ} (h : i < base) (hpos : 0 < i) : charAt i ≠ minChar := by
  intro hmin
  have hzero := (charValue_charAt h).symm.trans (charValue_eq_zero.mpr hmin)
  have : i = 0 := Except.ok.inj hzero
  omega

/-! ## When the padded strings are equal -/

theorem not_lt_of_extends (h : right <+: left) : ¬left < right := by
  obtain ⟨t,rfl⟩ := h
  cases t with
  | nil => simp
  | cons c t => exact lt_asymm (lt_append_cons right c t)

theorem pad_eq_iff (hlt : left < right) :
    pad left (max left.length right.length) = pad right (max left.length right.length) ↔
      FloorExtends left right := by
  rcases le_total left.length right.length with hle | hle
  · have hright : pad right right.length = right := if_pos (le_refl _)
    rw [max_eq_right hle,hright]
    constructor
    · intro heq
      unfold pad at heq
      split at heq
      · exact absurd (heq ▸ hlt) (lt_irrefl _)
      · exact ⟨right.length-left.length,by omega,heq.symm⟩
    · rintro ⟨k,hk,rfl⟩
      have hlen : (left++List.replicate k minChar).length-left.length = k := by simp
      rw [pad,if_neg (by simp; omega),hlen]
  · have hleft : pad left left.length = left := if_pos (le_refl _)
    rw [max_eq_left hle,hleft]
    constructor
    · intro heq
      obtain ⟨t,ht⟩ := pad_extends right left.length
      exact absurd hlt (not_lt_of_extends ⟨t,(heq.trans ht).symm⟩)
    · rintro ⟨k,hk,rfl⟩
      rw [List.length_append,List.length_replicate] at hle
      omega

/-! ## What the loop returns -/

theorem between_self_error (h : InAlphabet a) : between a a = .error .identicalAfterPadding := by
  induction a with
  | nil => rfl
  | cons c a ih =>
    obtain ⟨hc,ha⟩ := List.forall_mem_cons.mp h
    obtain ⟨i,hi⟩ := charValue_of_mem hc
    simp [between,hi,ih ha,bind,Except.bind]

theorem between_ok (ha : InAlphabet a) (hb : InAlphabet b) (hlen : a.length = b.length)
    (hne : a ≠ b) : ∃ m, between a b = .ok m := by
  induction a generalizing b with
  | nil => exact absurd (List.length_eq_zero_iff.mp hlen.symm).symm hne
  | cons c a ih =>
    cases b with
    | nil => simp at hlen
    | cons d b =>
      obtain ⟨hc,ha⟩ := List.forall_mem_cons.mp ha
      obtain ⟨hd,hb⟩ := List.forall_mem_cons.mp hb
      obtain ⟨i,hi⟩ := charValue_of_mem hc
      obtain ⟨j,hj⟩ := charValue_of_mem hd
      simp only [between,hi,hj,bind,Except.bind,pure,Except.pure]
      split
      · next hij =>
        subst hij
        have htail : a ≠ b := by
          rintro rfl
          exact hne (by rw [charValue_injective hi hj])
        obtain ⟨m,hm⟩ := ih ha hb (by simpa using hlen) htail
        exact ⟨c::m,by rw [hm]⟩
      · split
        · exact ⟨_,rfl⟩
        · exact ⟨_,rfl⟩

def Fresh (m : Rank) : Prop := InAlphabet m ∧ ∃ init last, m = init++[last] ∧ last ≠ minChar

theorem fresh_cons (hc : c ∈ alphabet) (h : Fresh m) : Fresh (c::m) := by
  obtain ⟨hm,init,last,rfl,hlast⟩ := h
  exact ⟨inAlphabet_cons hc hm,c::init,last,rfl,hlast⟩

theorem fresh_after (h : InAlphabet a) : Fresh (after a) :=
  ⟨inAlphabet_after h,a,midChar,rfl,by decide⟩

theorem fresh_charAt {i : ℕ} (h : i < base) (hpos : 0 < i) : Fresh [charAt i] :=
  ⟨inAlphabet_cons (charAt_mem h) nofun,[],charAt i,rfl,charAt_ne_min h hpos⟩

theorem between_fresh (ha : InAlphabet a) (h : between a b = .ok m) : Fresh m := by
  induction a generalizing b m with
  | nil => cases h
  | cons c a ih =>
    cases b with
    | nil => cases h
    | cons d b =>
      obtain ⟨hc,ha⟩ := List.forall_mem_cons.mp ha
      obtain ⟨i,j,hi,hj,hcase⟩ := between_cons h
      have hbound := charValue_lt_base hj
      rcases hcase with ⟨_,rest,hrest,rfl⟩ | ⟨hgap,rfl⟩ | ⟨_,_,rfl⟩
      · exact fresh_cons hc (ih ha hrest)
      · exact fresh_charAt (by omega) (by omega)
      · exact fresh_cons hc (fresh_after ha)

theorem fresh_last (h : Fresh m) : m.getLast? ≠ some minChar := by
  obtain ⟨_,init,last,rfl,hlast⟩ := h
  rw [List.getLast?_concat]
  exact fun heq => hlast (Option.some.inj heq)

theorem midpoint_ok (hl : InAlphabet left) (hr : InAlphabet right) (hlt : left < right)
    (hnot : ¬FloorExtends left right) : ∃ m, midpoint (some left) (some right) = .ok m := by
  rw [midpoint_of_lt hlt]
  refine between_ok (inAlphabet_pad hl _) (inAlphabet_pad hr _) ?_
    (fun heq => hnot ((pad_eq_iff hlt).mp heq))
  rw [pad_length _ _ (le_max_left _ _),pad_length _ _ (le_max_right _ _)]

theorem midpoint_extends (hr : InAlphabet right) (hlt : left < right)
    (hext : FloorExtends left right) : ∃ e, midpoint (some left) (some right) = .error e := by
  refine ⟨.identicalAfterPadding,?_⟩
  rw [midpoint_of_lt hlt,(pad_eq_iff hlt).mpr hext]
  exact between_self_error (inAlphabet_pad hr _)

/-- It fails exactly when `right` extends `left` by floor characters, and answers
strictly between the two otherwise. -/
theorem midpoint_strict (hl : InAlphabet left) (hr : InAlphabet right) (hlt : left < right) :
    ((∃ e, midpoint (some left) (some right) = .error e) ↔ FloorExtends left right) ∧
    (¬FloorExtends left right → ∃ m, midpoint (some left) (some right) = .ok m ∧
      InAlphabet m ∧ left < m ∧ m < right ∧ m.getLast? ≠ some minChar) := by
  constructor
  · refine ⟨?_,midpoint_extends hr hlt⟩
    rintro ⟨e,he⟩
    by_contra hnot
    obtain ⟨m,hm⟩ := midpoint_ok hl hr hlt hnot
    cases he.symm.trans hm
  · intro hnot
    obtain ⟨m,hm⟩ := midpoint_ok hl hr hlt hnot
    have hfresh := between_fresh (inAlphabet_pad hl _) ((midpoint_of_lt hlt).symm.trans hm)
    exact ⟨m,hm,hfresh.1,midpoint_gt hm,midpoint_lt hm,fresh_last hfresh⟩

theorem midpoint_strict_adjacent :
    ((∃ e, midpoint (some ['a','z']) (some ['b']) = .error e) ↔
      FloorExtends ['a','z'] ['b']) ∧
    (¬FloorExtends ['a','z'] ['b'] → ∃ m, midpoint (some ['a','z']) (some ['b']) = .ok m ∧
      InAlphabet m ∧ ['a','z'] < m ∧ m < ['b'] ∧ m.getLast? ≠ some minChar) :=
  midpoint_strict (by decide) (by decide) (by decide)

/-! ## Chains of midpoints -/

def midpointsFrom (right : Option Rank) : Option Rank → ℕ → Except RankError (List Rank)
  | _, 0 => .ok []
  | currentLeft, count+1 => do
    let r ← midpoint currentLeft right
    let ranks ← midpointsFrom right (some r) count
    return r::ranks

def midpointsBetween (left right : Option Rank) (count : ℤ) : Except RankError (List Rank) :=
  if count ≤ 0 then .ok [] else midpointsFrom right left count.toNat

theorem past_cons {s t : Rank} : Past (c::s) (c::t) ↔ Past s t := by
  simp [Past,List.cons_prefix_cons]

theorem past_of_lt {d : Char} (h : c < d) (s t : Rank) : Past (c::s) (d::t) :=
  ⟨cons_lt_of_lt h s t,fun hpre => absurd (List.cons_prefix_cons.mp hpre).1 (ne_of_lt h)⟩

theorem before_past (h : before right = .ok m) (hf : ¬AllFloor right) : Past m right := by
  induction right generalizing m with
  | nil => exact absurd (fun c hc => by simp at hc) hf
  | cons c right ih =>
    obtain ⟨i,hi,⟨rfl,rest,hrest,rfl⟩ | ⟨hpos,rfl⟩⟩ := before_cons h
    · exact past_cons.mpr (ih hrest (not_floor_tail hi hf))
    · have hbound := charValue_lt_base hi
      exact past_of_lt (charValue_lt (charValue_charAt (by omega)) hi (by omega)) _ _

theorem before_ok (h : InAlphabet right) : ∃ m, before right = .ok m ∧ InAlphabet m := by
  induction right with
  | nil => exact ⟨_,rfl,by decide⟩
  | cons c right ih =>
    obtain ⟨hc,hr⟩ := List.forall_mem_cons.mp h
    obtain ⟨i,hi⟩ := charValue_of_mem hc
    obtain ⟨m,hm,halpha⟩ := ih hr
    have hbound := charValue_lt_base hi
    simp only [before,hi,hm,bind,Except.bind,pure,Except.pure]
    split
    · exact ⟨_,rfl,inAlphabet_cons hc halpha⟩
    · exact ⟨_,rfl,inAlphabet_cons (charAt_mem (by omega)) (fun _ hmem => absurd hmem
        List.not_mem_nil)⟩

theorem between_past (hl : left.length ≤ n) (hr : right.length ≤ n) (hlt : left < right)
    (h : between (pad left n) (pad right n) = .ok m) : Past m right := by
  induction right generalizing left m n with
  | nil => exact absurd hlt (List.not_lt_nil left)
  | cons c right ih =>
    obtain ⟨k,rfl⟩ : ∃ k, n = k+1 := ⟨n-1,by simp at hr; omega⟩
    obtain ⟨i,j,hi,hj,hcase⟩ := between_step hlt h
    have hbound := charValue_lt_base hj
    rcases hcase with ⟨_,htail,rest,hrest,rfl⟩ | ⟨hgap,rfl⟩ | ⟨hgap,rfl⟩
    · have htl : left.tail.length ≤ k := by simp; omega
      exact past_cons.mpr (ih htl (by simpa using hr) htail hrest)
    · exact past_of_lt (charValue_lt (charValue_charAt (by omega)) hj (by omega)) _ _
    · exact past_of_lt (charValue_lt hi hj (by omega)) _ _

structure Open (left right : Option Rank) : Prop where
  below : ∀ l ∈ left, InAlphabet l
  above : ∀ r ∈ right, InAlphabet r
  lt : ∀ l ∈ left, ∀ r ∈ right, l < r ∧ ¬FloorExtends l r
  floor : left = none → ∀ r ∈ right, ¬AllFloor r

theorem not_floorExtends_of_past (h : Past left right) : ¬FloorExtends left right := by
  rintro ⟨k,_,rfl⟩
  exact h.2 (List.prefix_append _ _)

/-- One step: a rank inside the bounds, which can be the next left bound. -/
theorem open_step {left right : Option Rank} (h : Open left right) :
    ∃ r, midpoint left right = .ok r ∧ (∀ l ∈ left, l < r) ∧ Open (some r) right := by
  have hnext : ∀ {r : Rank}, InAlphabet r → (∀ z ∈ right, Past r z) → Open (some r) right := by
    intro r hr hpast
    refine ⟨?_,h.above,?_,nofun⟩
    · rintro l hl
      exact Option.some.inj hl ▸ hr
    · rintro l hl z hz
      obtain rfl := Option.some.inj hl
      exact ⟨(hpast z hz).1,not_floorExtends_of_past (hpast z hz)⟩
  cases left with
  | none =>
    cases right with
    | none => exact ⟨_,rfl,nofun,hnext (by decide) nofun⟩
    | some z =>
      obtain ⟨r,hr,halpha⟩ := before_ok (h.above z rfl)
      have hpast := before_past hr (h.floor rfl z rfl)
      exact ⟨r,hr,nofun,hnext halpha (fun _ hz => Option.some.inj hz ▸ hpast)⟩
  | some l =>
    cases right with
    | none =>
      exact ⟨_,rfl,fun _ hl => Option.some.inj hl ▸ after_gt l,
        hnext (inAlphabet_after (h.below l rfl)) nofun⟩
    | some z =>
      obtain ⟨hlt,hnot⟩ := h.lt l rfl z rfl
      obtain ⟨r,hr,halpha,habove,_⟩ :=
        (midpoint_strict (h.below l rfl) (h.above z rfl) hlt).2 hnot
      have hcall := hr
      rw [midpoint_of_lt hlt] at hcall
      have hpast := between_past (le_max_left _ _) (le_max_right _ _) hlt hcall
      exact ⟨r,hr,fun _ hl => Option.some.inj hl ▸ habove,
        hnext halpha (fun _ hz => Option.some.inj hz ▸ hpast)⟩

theorem midpointsFrom_strict {left right : Option Rank} (h : Open left right) (count : ℕ) :
    ∃ ranks, midpointsFrom right left count = .ok ranks ∧ ranks.length = count ∧
      ranks.Pairwise (· < ·) ∧ (∀ x ∈ ranks, ∀ l ∈ left, l < x) ∧
      ∀ x ∈ ranks, ∀ r ∈ right, x < r := by
  induction count generalizing left with
  | zero => exact ⟨[],rfl,rfl,List.Pairwise.nil,nofun,nofun⟩
  | succ count ih =>
    obtain ⟨r,hr,habove,hopen⟩ := open_step h
    obtain ⟨ranks,hranks,hlength,hsorted,hleft,hright⟩ := ih hopen
    refine ⟨r::ranks,?_,by rw [List.length_cons,hlength],?_,?_,?_⟩
    · rw [midpointsFrom,hr]
      simp only [bind,Except.bind,hranks,pure,Except.pure]
    · exact List.pairwise_cons.mpr ⟨fun x hx => hleft x hx r rfl,hsorted⟩
    · refine List.forall_mem_cons.mpr ⟨habove,fun x hx l hl => ?_⟩
      exact lt_trans (habove l hl) (hleft x hx r rfl)
    · exact List.forall_mem_cons.mpr ⟨fun z hz => (hopen.lt r rfl z hz).1,hright⟩

/-- As many ranks as asked for, rising and inside the bounds. -/
theorem midpointsBetween_strict {left right : Option Rank} (count : ℤ)
    (hleft : ∀ l ∈ left, InAlphabet l) (hright : ∀ r ∈ right, InAlphabet r)
    (hlt : ∀ l ∈ left, ∀ r ∈ right, l < r ∧ ¬FloorExtends l r)
    (hfloor : left = none → ∀ r ∈ right, ¬AllFloor r) :
    ∃ ranks, midpointsBetween left right count = .ok ranks ∧ ranks.length = count.toNat ∧
      ranks.Pairwise (· < ·) ∧ (∀ x ∈ ranks, ∀ l ∈ left, l < x) ∧
      ∀ x ∈ ranks, ∀ r ∈ right, x < r := by
  have hcount : midpointsBetween left right count = midpointsFrom right left count.toNat := by
    unfold midpointsBetween
    split
    · next hneg =>
      rw [Int.toNat_of_nonpos hneg]
      rfl
    · rfl
  rw [hcount]
  exact midpointsFrom_strict ⟨hleft,hright,hlt,hfloor⟩ count.toNat

theorem midpointsBetween_floor : ∃ ranks,
    midpointsBetween none (some ['0','1']) 3 = .ok ranks ∧ ranks.length = 3 ∧
      ranks.Pairwise (· < ·) ∧ (∀ x ∈ ranks, ∀ l ∈ (none : Option Rank), l < x) ∧
      ∀ x ∈ ranks, ∀ r ∈ some ['0','1'], x < r :=
  midpointsBetween_strict 3 nofun (by decide) nofun (by decide)

example : midpointsBetween none (some ['0','1']) 3 =
    .ok [['0','0'],['0','0','i'],['0','0','i','i']] := by decide

end BlockDocs.StrictRanks
