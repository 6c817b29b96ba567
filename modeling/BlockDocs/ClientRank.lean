import BlockDocs.LexoRank

/-!
# The browser's midpoint

Optimistic inserts and moves take a rank from this routine; the server picks
its own. Code units are read with sentinels beyond the end of either string.
-/

set_option autoImplicit false

namespace BlockDocs.ClientRank
open BlockDocs.LexoRank

def minChar : ℕ := 97
def maxChar : ℕ := 122
def midChar : ℕ := 109

def expand : ℕ → List Char → List Char
  | _, [] => [Char.ofNat ((minChar+maxChar+1)/2)]
  | i, c::cs =>
    if c.toNat < maxChar then [Char.ofNat ((c.toNat+maxChar+1)/2)]
    else if i+1 > 40 then [c,Char.ofNat midChar]
    else c::expand (i+1) cs

def settle (i ac bc : ℕ) (rest : List Char) : List Char :=
  if bc > ac+1 then [Char.ofNat ((ac+bc)/2)] else Char.ofNat ac::expand (i+1) rest

def midpointFrom : ℕ → List Char → List Char → List Char
  | i, [], [] => settle i minChar (maxChar+1) []
  | i, [], d::ds =>
    if minChar = d.toNat then d::midpointFrom (i+1) [] ds else settle i minChar d.toNat []
  | i, c::cs, [] =>
    if c.toNat = maxChar+1 then c::midpointFrom (i+1) cs [] else settle i c.toNat (maxChar+1) cs
  | i, c::cs, d::ds =>
    if c = d then c::midpointFrom (i+1) cs ds else settle i c.toNat d.toNat cs
termination_by _ a b => a.length+b.length

def midpoint (prev next : Option Rank) : Rank := midpointFrom 0 (prev.getD []) (next.getD [])

example : midpoint none none = ['n'] ∧ midpoint (some ['m']) (some ['n']) = ['m','n'] := by
  decide +kernel

/-! ## Where the midpoint falls -/

theorem lt_iff_toNat {c d : Char} : c < d ↔ c.toNat < d.toNat := UInt32.lt_iff_toNat_lt

theorem toNat_ofNat {n : ℕ} (h : n < 256) : (Char.ofNat n).toNat = n := by
  have hvalid : n.isValidChar := Or.inl (by omega)
  rw [Char.ofNat,dif_pos hvalid]
  exact UInt32.toNat_ofNatLT

theorem toNat_eq_min {d : Char} : minChar = d.toNat ↔ d = 'a' := by
  constructor
  · exact fun h => Char.toNat_inj.mp h.symm
  · rintro rfl
    rfl

theorem settle_far {i ac bc : ℕ} {rest : List Char} (h : bc > ac+1) :
    settle i ac bc rest = [Char.ofNat ((ac+bc)/2)] := if_pos h

theorem settle_near {i ac bc : ℕ} {rest : List Char} (h : ¬bc > ac+1) :
    settle i ac bc rest = Char.ofNat ac::expand (i+1) rest := if_neg h

/-- The alphabet of this routine begins at `a`, but the next rank may go on from
`prev` with a digit, or with nothing at all. Then the routine finds no room and
goes past `next`, with an extension of the rank that is given here. -/
def overrun : Rank → Rank → Option Rank
  | [], [] => some []
  | [], d::ds =>
    if d = 'a' then (overrun [] ds).map (d::·)
    else if d < 'a' then some ['a'] else none
  | _::_, [] => none
  | c::cs, d::ds => if c = d then (overrun cs ds).map (c::·) else none

theorem midpoint_overrun (i : ℕ) {prev next w : Rank} (h : overrun prev next = some w) :
    midpointFrom i prev next = w++['n'] := by
  induction next generalizing i prev w with
  | nil =>
    cases prev with
    | nil =>
      cases h
      rw [midpointFrom]
      rfl
    | cons c cs => cases h
  | cons d ds ih =>
    cases prev with
    | nil =>
      rw [overrun] at h
      rw [midpointFrom]
      by_cases hd : d = 'a'
      · rw [if_pos hd] at h
        obtain ⟨v,hv,rfl⟩ := Option.map_eq_some_iff.mp h
        rw [if_pos (toNat_eq_min.mpr hd),ih _ hv]
        rfl
      · rw [if_neg hd] at h
        rw [if_neg (toNat_eq_min.not.mpr hd)]
        by_cases hlow : d < 'a'
        · rw [if_pos hlow] at h
          cases h
          have hcode : d.toNat < 97 := lt_iff_toNat.mp hlow
          rw [settle_near (by simp only [minChar]; omega)]
          rfl
        · rw [if_neg hlow] at h
          cases h
    | cons c cs =>
      rw [overrun] at h
      rw [midpointFrom]
      by_cases hc : c = d
      · rw [if_pos hc] at h
        obtain ⟨v,hv,rfl⟩ := Option.map_eq_some_iff.mp h
        rw [if_pos hc,ih _ hv]
        rfl
      · rw [if_neg hc] at h
        cases h

example : overrun [] ['5'] = some ['a'] ∧ midpoint none (some ['5']) = ['a','n'] := by
  decide +kernel

/-- Far from the last letter of the alphabet the routine does not give up. -/
def Early (s : Rank) : Prop := ∀ c ∈ s, c < 'n'

theorem early_toNat {c : Char} (h : c < 'n') : c.toNat < 110 := lt_iff_toNat.mp h

theorem early_tail {c : Char} {s : Rank} (h : Early (c::s)) : Early s :=
  fun d hd => h d (List.mem_cons_of_mem c hd)

theorem expand_gt (i : ℕ) {s : Rank} (h : Early s) : s < expand i s := by
  cases s with
  | nil => exact List.nil_lt_cons _ _
  | cons c cs =>
    have hc := early_toNat (h c List.mem_cons_self)
    rw [expand,if_pos (by simp only [maxChar]; omega)]
    apply cons_lt_of_lt
    rw [lt_iff_toNat,toNat_ofNat (by simp only [maxChar]; omega)]
    simp only [maxChar]
    omega

theorem settle_above (i : ℕ) {c : Char} {cs : Rank} {bc : ℕ} (h : Early (c::cs))
    (hbc : bc ≤ 123) : c::cs < settle i c.toNat bc cs := by
  by_cases hfar : bc > c.toNat+1
  · have hc := early_toNat (h c List.mem_cons_self)
    rw [settle_far hfar]
    apply cons_lt_of_lt
    rw [lt_iff_toNat,toNat_ofNat (by omega)]
    omega
  · rw [settle_near hfar,Char.ofNat_toNat]
    exact cons_lt_same c (expand_gt _ (early_tail h))

theorem settle_below (i : ℕ) {ac : ℕ} {rest ds : Rank} {d : Char} (hd : d < 'n')
    (hlt : ac < d.toNat) : settle i ac d.toNat rest < d::ds := by
  have hcode := early_toNat hd
  by_cases hfar : d.toNat > ac+1
  · rw [settle_far hfar]
    apply cons_lt_of_lt
    rw [lt_iff_toNat,toNat_ofNat (by omega)]
    omega
  · rw [settle_near hfar]
    apply cons_lt_of_lt
    rw [lt_iff_toNat,toNat_ofNat (by omega)]
    exact hlt

theorem midpoint_between (i : ℕ) {prev next : Rank} (hp : Early prev) (hn : Early next)
    (hle : prev ≤ next) (h : overrun prev next = none) :
    prev < midpointFrom i prev next ∧ midpointFrom i prev next < next := by
  induction next generalizing i prev with
  | nil =>
    cases prev with
    | nil => cases h
    | cons c cs => exact absurd (List.nil_lt_cons c cs) (not_lt_of_ge hle)
  | cons d ds ih =>
    have hd := hn d List.mem_cons_self
    cases prev with
    | nil =>
      rw [overrun] at h
      rw [midpointFrom]
      by_cases ha : d = 'a'
      · rw [if_pos ha,Option.map_eq_none_iff] at h
        rw [if_pos (toNat_eq_min.mpr ha)]
        have hnil : ([] : Rank) ≤ ds := not_lt.mp (List.not_lt_nil ds)
        exact ⟨List.nil_lt_cons _ _,cons_lt_same d (ih _ hp (early_tail hn) hnil h).2⟩
      · rw [if_neg ha] at h
        rw [if_neg (toNat_eq_min.not.mpr ha)]
        by_cases hlow : d < 'a'
        · rw [if_pos hlow] at h
          cases h
        · have hgt : 'a' < d := lt_of_le_of_ne (not_lt.mp hlow) (Ne.symm ha)
          have hcode : 97 < d.toNat := lt_iff_toNat.mp hgt
          refine ⟨?_,settle_below i hd hcode⟩
          unfold settle
          split <;> exact List.nil_lt_cons _ _
    | cons c cs =>
      rw [overrun] at h
      rw [midpointFrom]
      by_cases heq : c = d
      · rw [if_pos heq,Option.map_eq_none_iff] at h
        rw [if_pos heq]
        have htail : cs ≤ ds := by
          by_contra hlt
          exact absurd (heq ▸ cons_lt_same c (not_le.mp hlt)) (not_lt_of_ge hle)
        obtain ⟨h1,h2⟩ := ih (i+1) (early_tail hp) (early_tail hn) htail h
        exact ⟨cons_lt_same c h1,heq ▸ cons_lt_same c h2⟩
      · rw [if_neg heq]
        have hlt : c < d := by
          by_contra hge
          have hdc := lt_of_le_of_ne (not_lt.mp hge) (Ne.symm heq)
          exact absurd (cons_lt_of_lt hdc ds cs) (not_lt_of_ge hle)
        have hcode := early_toNat hd
        exact ⟨settle_above i hp (by omega),settle_below i hd (lt_iff_toNat.mp hlt)⟩

theorem midpoint_append (i : ℕ) {prev : Rank} (h : Early prev) :
    prev < midpointFrom i prev [] := by
  cases prev with
  | nil =>
    rw [midpointFrom]
    exact List.nil_lt_cons _ _
  | cons c cs =>
    have hc := early_toNat (h c List.mem_cons_self)
    rw [midpointFrom,if_neg (by simp only [maxChar]; omega)]
    exact settle_above i h (le_refl _)

def Past (w p : Rank) : Prop := w < p ∧ ¬w <+: p

instance (w p : Rank) : Decidable (Past w p) := inferInstanceAs (Decidable (_ ∧ _))

theorem past_iff {w p : Rank} (hp : Early p) : w++['n'] < p ↔ Past w p := by
  induction w generalizing p with
  | nil =>
    cases p with
    | nil => simp [Past]
    | cons d ds =>
      have hd := hp d List.mem_cons_self
      simp [Past,List.cons_lt_cons_iff,not_lt_of_gt hd,(ne_of_lt hd).symm]
  | cons c w ih =>
    cases p with
    | nil => simp [Past]
    | cons d ds =>
      have hds := ih (early_tail hp)
      unfold Past at hds ⊢
      rw [List.cons_append,List.cons_lt_cons_iff,List.cons_lt_cons_iff,List.cons_prefix_cons,hds]
      constructor
      · rintro (h | ⟨rfl,h⟩)
        · exact ⟨Or.inl h,fun hc => absurd hc.1 (ne_of_lt h)⟩
        · exact ⟨Or.inr ⟨rfl,h.1⟩,fun hc => h.2 hc.2⟩
      · rintro ⟨h | ⟨rfl,h⟩,hpre⟩
        · exact Or.inl h
        · exact Or.inr ⟨rfl,h,fun hc => hpre ⟨rfl,hc⟩⟩

def Below (prev next p : Rank) : Prop :=
  match overrun prev next with
  | none => p ≤ prev
  | some w => ¬Past w p

theorem midpoint_sides (i : ℕ) {prev next p : Rank} (hprev : Early prev) (hnext : Early next)
    (hp : Early p) (hle : prev ≤ next) (hout : p ≤ prev ∨ next ≤ p) :
    (Below prev next p → p < midpointFrom i prev next) ∧
      (¬Below prev next p → midpointFrom i prev next < p) := by
  unfold Below
  cases hw : overrun prev next with
  | none =>
    obtain ⟨habove,hbelow⟩ := midpoint_between i hprev hnext hle hw
    constructor
    · exact fun hle => lt_of_le_of_lt hle habove
    · exact fun hgt => lt_of_lt_of_le hbelow (hout.resolve_left hgt)
  | some w =>
    rw [midpoint_overrun i hw]
    simp only [not_not,past_iff hp]
    constructor
    · intro hpast
      have hle : p ≤ w++['n'] := not_lt.mp (fun hlt => hpast ((past_iff hp).mp hlt))
      refine lt_of_le_of_ne hle ?_
      rintro rfl
      exact absurd (hp 'n' (by simp)) (lt_irrefl 'n')
    · exact id

end BlockDocs.ClientRank
