import BlockDocs.StrictRanks

/-!
# When the rank between two siblings is the shortest one

`midpoint` promises the shortest rank between its bounds. It gives one when the bounds
part by more than one character, and when the right one ends at the neighbouring
character while nothing above the left tail has its length. Everywhere else it is longer
than it has to be: below `right` there is room on a prefix of it, right above `left`, or
at a character of the left tail.
-/

set_option autoImplicit false

namespace BlockDocs.ShortestRank
open BlockDocs.LexoRank
open BlockDocs.StrictRanks

def maxChar : Char := 'z'

def Shortest (left right m : Rank) : Prop :=
  ∀ x, InAlphabet x → left < x → x < right → m.length ≤ x.length

/-- Behind their common start there is a character strictly between the two, the floor
standing for the end of `left`. -/
def Wide (left right : Rank) : Prop :=
  ∃ p s b t i j, left = p++s ∧ right = p++b::t ∧ charValue (s.headD minChar) = .ok i ∧
    charValue b = .ok j ∧ i+1 < j

/-- `right` ends at the character next to the one of `left`, behind which `left` has no
character that could grow. -/
def Full (left right : Rank) : Prop :=
  ∃ p a b k i, left = p++a::List.replicate k maxChar ∧ right = p++[b] ∧
    charValue a = .ok i ∧ charValue b = .ok (i+1)

variable {left right l r m p s t x y : Rank} {a b c : Char} {i j k n : ℕ}

theorem charValue_max : charValue maxChar = .ok 35 := by decide

theorem base_eq : base = 36 := rfl

theorem charValue_le_max (h : charValue c = .ok i) : i ≤ 35 := by
  have hb := charValue_lt_base h
  have := base_eq
  omega

/-- Only the greatest character has the greatest value. -/
theorem charValue_lt_max (h : charValue c = .ok i) (hne : c ≠ maxChar) : i < 35 := by
  have hle := charValue_le_max h
  have hi : i ≠ 35 := by
    rintro rfl
    exact hne (charValue_injective h charValue_max)
  omega

/-! ## Ranks between two that start alike -/

theorem append_lt_append (p : Rank) (h : s < t) : p++s < p++t := by
  induction p with
  | nil => exact h
  | cons c p ih => exact cons_lt_same c ih

/-- What lies between two ranks has their common start. -/
theorem extends_start (h1 : p++s < x) (h2 : x < p++t) : ∃ y, x = p++y ∧ s < y ∧ y < t := by
  induction p generalizing x with
  | nil => exact ⟨x,rfl,h1,h2⟩
  | cons c p ih =>
    cases x with
    | nil => exact absurd h1 (List.not_lt_nil _)
    | cons d x =>
      rcases List.cons_lt_cons_iff.mp h1 with hcd | ⟨rfl,htail⟩
      · rcases List.cons_lt_cons_iff.mp h2 with hdc | ⟨rfl,_⟩
        · exact absurd hdc (lt_asymm hcd)
        · exact absurd hcd (lt_irrefl _)
      · rcases List.cons_lt_cons_iff.mp h2 with hdc | ⟨_,htail'⟩
        · exact absurd hdc (lt_irrefl _)
        · obtain ⟨y,rfl,h3,h4⟩ := ih htail htail'
          exact ⟨y,rfl,h3,h4⟩

theorem length_pos_of_lt (h : s < t) : 1 ≤ t.length := by
  cases t with
  | nil => exact absurd h (List.not_lt_nil s)
  | cons c t => simp

/-- Above a word of greatest characters there are longer words only. -/
theorem longer_than_max (hy : InAlphabet y) (h : List.replicate k maxChar < y) :
    k < y.length := by
  induction k generalizing y with
  | zero => exact length_pos_of_lt h
  | succ k ih =>
    cases y with
    | nil => exact absurd h (List.not_lt_nil _)
    | cons c y =>
      obtain ⟨hc,hy⟩ := List.forall_mem_cons.mp hy
      rw [List.replicate_succ] at h
      rcases List.cons_lt_cons_iff.mp h with hlt | ⟨_,htail⟩
      · obtain ⟨v,hv⟩ := charValue_of_mem hc
        have h1 := charValue_order charValue_max hv hlt
        have h2 := charValue_le_max hv
        omega
      · have := ih hy htail
        simp only [List.length_cons]
        omega

/-- A word with a character that can grow has a word above it that is no longer. -/
theorem grow (hs : InAlphabet s) (h : ∃ c ∈ s, c ≠ maxChar) :
    ∃ y, InAlphabet y ∧ s < y ∧ y.length ≤ s.length := by
  induction s with
  | nil => simp at h
  | cons c s ih =>
    obtain ⟨hc,hs⟩ := List.forall_mem_cons.mp hs
    obtain ⟨v,hv⟩ := charValue_of_mem hc
    by_cases hmax : c = maxChar
    · have htail : ∃ d ∈ s, d ≠ maxChar := by
        obtain ⟨d,hd,hne⟩ := h
        rcases List.mem_cons.mp hd with rfl | hd
        · exact absurd hmax hne
        · exact ⟨d,hd,hne⟩
      obtain ⟨y,hy,hlt,hlen⟩ := ih hs htail
      refine ⟨c::y,inAlphabet_cons hc hy,cons_lt_same c hlt,?_⟩
      simp only [List.length_cons]
      omega
    · have hlt := charValue_lt_max hv hmax
      have hbase := base_eq
      have hnext : charValue (charAt (v+1)) = .ok (v+1) := charValue_charAt (by omega)
      refine ⟨[charAt (v+1)],inAlphabet_cons (mem_of_charValue hnext) (by simp [InAlphabet]),
        ?_,by simp⟩
      exact cons_lt_of_lt (charValue_lt hv hnext (by omega)) _ _

theorem eq_max_of_not_grow (h : ¬∃ c ∈ s, c ≠ maxChar) :
    s = List.replicate s.length maxChar := by
  apply List.eq_replicate_iff.mpr
  refine ⟨rfl,fun c hc => ?_⟩
  by_contra hne
  exact h ⟨c,hc,hne⟩

/-! ## Where the two strings part -/

/-- The slot at which the loop of `midpoint` stops, and what it answers there. In the
second case of `start` the left string ends before that slot. -/
structure Parting (l r m : Rank) (p s t : Rank) (c : Char) (k i j : ℕ) : Prop where
  start : l = p++s ∨ ∃ z, 1 ≤ z ∧ p = l++List.replicate z minChar
  right : r = p++c::t
  leftValue : charValue (s.headD minChar) = .ok i
  rightValue : charValue c = .ok j
  answer : (i+1 < j ∧ m = p++[charAt ((i+j)/2)]) ∨
    (j = i+1 ∧ m = p++s.headD minChar::after (pad s.tail k))

theorem between_parting (hn : r.length ≤ n) (hlt : l < r)
    (h : between (pad l n) (pad r n) = .ok m) :
    ∃ p s t c k i j, Parting l r m p s t c k i j := by
  induction r generalizing l m n with
  | nil => exact absurd hlt (List.not_lt_nil l)
  | cons c r ih =>
    obtain ⟨k,rfl⟩ : ∃ k, n = k+1 := ⟨n-1,by simp at hn; omega⟩
    obtain ⟨i,j,hi,hj,hcase⟩ := between_step hlt h
    rcases hcase with ⟨heq,htail,rest,hrest,rfl⟩ | ⟨hgap,rfl⟩ | ⟨hgap,rfl⟩
    · obtain ⟨p,s,t,d,k',i',j',hp⟩ := ih (by simpa using hn) htail hrest
      refine ⟨c::p,s,t,d,k',i',j',?_,by rw [hp.right]; rfl,hp.leftValue,hp.rightValue,?_⟩
      · cases l with
        | nil =>
          -- the floor character stands for the end of the left string
          right
          change minChar = c at heq
          rcases hp.start with hnil | ⟨z,_,hz⟩
          · have hp0 : p = [] := (List.append_eq_nil_iff.mp hnil.symm).1
            exact ⟨1,le_refl 1,by rw [hp0,← heq]; rfl⟩
          · refine ⟨z+1,by omega,?_⟩
            change p = List.replicate z minChar at hz
            rw [hz,← heq,List.replicate_succ]
            rfl
        | cons a l =>
          change a = c at heq
          rcases hp.start with hl | ⟨z,hz,hl⟩
          · change l = p++s at hl
            exact Or.inl (by rw [heq,hl]; rfl)
          · change p = l++_ at hl
            exact Or.inr ⟨z,hz,by rw [heq,hl]; rfl⟩
      · rcases hp.answer with ⟨hlt',rfl⟩ | ⟨hone,rfl⟩
        · exact Or.inl ⟨hlt',rfl⟩
        · exact Or.inr ⟨hone,rfl⟩
    · exact ⟨[],l,r,c,k,i,j,Or.inl rfl,rfl,hi,hj,Or.inl ⟨hgap,rfl⟩⟩
    · exact ⟨[],l,r,c,k,i,j,Or.inl rfl,rfl,hi,hj,Or.inr ⟨hgap,rfl⟩⟩

/-! ## Where the answer is the shortest -/

theorem pad_append (p s : Rank) (n : ℕ) : pad (p++s) (p.length+n) = p++pad s n := by
  induction p with
  | nil => simp
  | cons c p ih =>
    have hlen : (c::p).length+n = (p.length+n)+1 := by simp only [List.length_cons]; omega
    rw [List.cons_append,hlen,pad_cons,ih]
    rfl

theorem inAlphabet_left (h : InAlphabet (s++t)) : InAlphabet s :=
  fun c hc => h c (List.mem_append_left t hc)

theorem inAlphabet_right (h : InAlphabet (s++t)) : InAlphabet t :=
  fun c hc => h c (List.mem_append_right s hc)

theorem wide_answer (hp : InAlphabet p) (hi : charValue (s.headD minChar) = .ok i)
    (hb : charValue b = .ok j) (hij : i+1 < j) (hlt : p++s < p++b::t) :
    midpoint (some (p++s)) (some (p++b::t)) = .ok (p++[charAt ((i+j)/2)]) := by
  obtain ⟨n,hn⟩ : ∃ n, max (p++s).length (p++b::t).length = p.length+(n+1) := by
    refine ⟨max s.length (t.length+1)-1,?_⟩
    simp only [List.length_append,List.length_cons]
    omega
  rw [midpoint_of_lt hlt,hn,pad_append,pad_append,pad_succ s,pad_cons]
  apply between_start hp
  have hne : i ≠ j := by omega
  have hgap : j-i > 1 := by omega
  simp only [between,hi,hb,bind,Except.bind,pure,Except.pure,if_neg hne,if_pos hgap]

theorem shortest_of_wide (hl : InAlphabet left) (hlt : left < right)
    (hm : midpoint (some left) (some right) = .ok m) (h : Wide left right) :
    Shortest left right m := by
  obtain ⟨p,s,b,t,i,j,rfl,rfl,hi,hb,hij⟩ := h
  rw [wide_answer (inAlphabet_left hl) hi hb hij hlt] at hm
  cases hm
  intro x _ h1 h2
  obtain ⟨y,rfl,hsy,_⟩ := extends_start h1 h2
  have hy := length_pos_of_lt hsy
  simp only [List.length_append,List.length_cons,List.length_nil]
  omega

theorem full_answer (hp : InAlphabet p) (ha : charValue a = .ok i)
    (hb : charValue b = .ok (i+1)) (hlt : p++a::s < p++[b]) :
    midpoint (some (p++a::s)) (some (p++[b])) = .ok (p++a::after s) := by
  have hn : max (p++a::s).length (p++[b]).length = p.length+(s.length+1) := by
    simp only [List.length_append,List.length_cons,List.length_nil]
    omega
  have hself : pad s s.length = s := if_pos (le_refl _)
  rw [midpoint_of_lt hlt,hn,pad_append,pad_append,pad_cons,pad_cons,hself]
  exact between_tight hp ha hb

theorem shortest_of_full (hl : InAlphabet left) (hlt : left < right)
    (hm : midpoint (some left) (some right) = .ok m) (h : Full left right) :
    Shortest left right m := by
  obtain ⟨p,a,b,k,i,rfl,rfl,ha,hb⟩ := h
  rw [full_answer (inAlphabet_left hl) ha hb hlt] at hm
  cases hm
  intro x hx h1 h2
  obtain ⟨y,rfl,hay,hyb⟩ := extends_start h1 h2
  have hy := inAlphabet_right hx
  cases y with
  | nil => exact absurd hay (List.not_lt_nil _)
  | cons c y =>
    obtain ⟨hc,hy⟩ := List.forall_mem_cons.mp hy
    obtain ⟨v,hv⟩ := charValue_of_mem hc
    have hcb : c < b := by
      rcases List.cons_lt_cons_iff.mp hyb with hcb | ⟨_,hnil⟩
      · exact hcb
      · exact absurd hnil (List.not_lt_nil y)
    have hvi := charValue_order hv hb hcb
    rcases List.cons_lt_cons_iff.mp hay with hac | ⟨_,htail⟩
    · have := charValue_order ha hv hac
      omega
    · have hlong := longer_than_max hy htail
      simp only [List.length_append,List.length_cons,after_length,List.length_replicate]
      omega

/-! ## Where it is not -/

theorem pad_length_le (s : Rank) (n : ℕ) : s.length ≤ (pad s n).length := by
  obtain ⟨t,ht⟩ := pad_extends s n
  rw [ht,List.length_append]
  omega

theorem inAlphabet_floor : InAlphabet [minChar] := by decide

theorem not_shortest (hx : InAlphabet x) (habove : left < x) (hbelow : x < right)
    (hm : x.length < m.length) : ¬Shortest left right m := by
  intro h
  have := h x hx habove hbelow
  omega

/-- The left string ends before the slot: it is enough to write one floor character
behind it. -/
theorem not_shortest_padded {z : ℕ} (hl : InAlphabet l) (hz : 1 ≤ z)
    (hm : l.length+1 < m.length) : ¬Shortest l (l++List.replicate z minChar++c::t) m := by
  have hbelow : l++[minChar] < l++List.replicate z minChar++c::t := by
    obtain ⟨w,rfl⟩ : ∃ w, z = w+1 := ⟨z-1,by omega⟩
    rw [List.append_assoc]
    apply append_lt_append
    rw [List.replicate_succ,List.cons_append]
    apply cons_lt_same
    cases w with
    | zero => exact List.nil_lt_cons c t
    | succ w => exact List.nil_lt_cons minChar _
  apply not_shortest (inAlphabet_append hl inAlphabet_floor) (lt_append_cons l minChar []) hbelow
  simpa using hm

/-- The left string ends at the slot. -/
theorem not_shortest_ended (hl : InAlphabet l) (hc : minChar < c) (hm : l.length+1 < m.length) :
    ¬Shortest l (l++c::t) m := by
  have hbelow : l++[minChar] < l++c::t := append_lt_append l (cons_lt_of_lt hc [] t)
  apply not_shortest (inAlphabet_append hl inAlphabet_floor) (lt_append_cons l minChar []) hbelow
  simpa using hm

/-- The right string goes on behind the slot: its start up to there lies between. -/
theorem not_shortest_long (hr : InAlphabet (p++c::t)) (hac : a < c) (ht : t ≠ [])
    (hm : p.length+1 < m.length) : ¬Shortest (p++a::s) (p++c::t) m := by
  have hx : InAlphabet (p++[c]) := by
    apply inAlphabet_append (inAlphabet_left hr)
    exact inAlphabet_cons (inAlphabet_right hr c (by simp)) (by simp [InAlphabet])
  have habove : p++a::s < p++[c] := append_lt_append p (cons_lt_of_lt hac s [])
  have hbelow : p++[c] < p++c::t := by
    apply append_lt_append
    apply cons_lt_same
    cases t with
    | nil => exact absurd rfl ht
    | cons d t => exact List.nil_lt_cons d t
  apply not_shortest hx habove hbelow
  simpa using hm

/-- The left tail has room without growing longer. -/
theorem not_shortest_tail (hl : InAlphabet (p++a::s)) (hac : a < c)
    (hs : ∃ d ∈ s, d ≠ maxChar) (hm : p.length+s.length+1 < m.length) :
    ¬Shortest (p++a::s) (p++[c]) m := by
  obtain ⟨ha,htail⟩ := List.forall_mem_cons.mp (inAlphabet_right hl)
  obtain ⟨y,hy,hlt,hlen⟩ := grow htail hs
  have hx : InAlphabet (p++a::y) :=
    inAlphabet_append (inAlphabet_left hl) (inAlphabet_cons ha hy)
  have habove : p++a::s < p++a::y := append_lt_append p (cons_lt_same a hlt)
  have hbelow : p++a::y < p++[c] := append_lt_append p (cons_lt_of_lt hac y [])
  apply not_shortest hx habove hbelow
  simp only [List.length_append,List.length_cons]
  omega

theorem wide_or_full (hl : InAlphabet l) (hr : InAlphabet r)
    (hp : Parting l r m p s t c k i j) (h : Shortest l r m) : Wide l r ∨ Full l r := by
  obtain ⟨hstart,rfl,hi,hj,hanswer⟩ := hp
  rcases hstart with rfl | ⟨z,hz,rfl⟩
  · rcases hanswer with ⟨hgap,rfl⟩ | ⟨rfl,rfl⟩
    · exact Or.inl ⟨p,s,c,t,i,j,rfl,rfl,hi,hj,hgap⟩
    · right
      cases s with
      | nil =>
        have hc : minChar < c := by
          have h0 : i = 0 := Except.ok.inj (hi.symm.trans charValue_min)
          exact charValue_lt charValue_min hj (by omega)
        rw [List.append_nil] at hl h
        refine absurd h (not_shortest_ended hl hc ?_)
        simp only [List.length_append,List.length_cons,after_length]
        omega
      | cons a s =>
        have hac : a < c := charValue_lt hi hj (by omega)
        have hpad := pad_length_le s k
        by_cases ht : t = []
        · subst ht
          by_cases hs : ∃ d ∈ s, d ≠ maxChar
          · refine absurd h (not_shortest_tail hl hac hs ?_)
            simp only [List.length_append,List.length_cons,List.tail_cons,after_length]
            omega
          · exact ⟨p,a,c,s.length,i,by rw [← eq_max_of_not_grow hs],rfl,hi,hj⟩
        · refine absurd h (not_shortest_long hr hac ht ?_)
          simp only [List.length_append,List.length_cons,after_length]
          omega
  · refine absurd h (not_shortest_padded hl hz ?_)
    rcases hanswer with ⟨_,rfl⟩ | ⟨_,rfl⟩
    · simp only [List.length_append,List.length_cons,List.length_replicate,List.length_nil]
      omega
    · simp only [List.length_append,List.length_cons,List.length_replicate]
      omega

/-- For two ranks between which `midpoint` finds one, it finds a shortest one exactly when
they part widely or the left tail is full. -/
theorem midpoint_shortest_iff (hl : InAlphabet left) (hr : InAlphabet right)
    (hlt : left < right) (hm : midpoint (some left) (some right) = .ok m) :
    Shortest left right m ↔ Wide left right ∨ Full left right := by
  constructor
  · intro h
    have hbetween := (midpoint_of_lt hlt).symm.trans hm
    obtain ⟨p,s,t,c,k,i,j,hp⟩ := between_parting (le_max_right _ _) hlt hbetween
    exact wide_or_full hl hr hp h
  · rintro (h | h)
    · exact shortest_of_wide hl hlt hm h
    · exact shortest_of_full hl hlt hm h

theorem midpoint_shortest_gap :
    Shortest ['a'] ['c'] ['b'] ↔ Wide ['a'] ['c'] ∨ Full ['a'] ['c'] :=
  midpoint_shortest_iff (by decide) (by decide) (by decide) (by decide)

/-- Between `a` and `bz` it answers three characters where `b` would do. -/
theorem midpoint_not_shortest :
    midpoint (some ['a']) (some ['b','z']) = .ok ['a','0','i'] ∧
      InAlphabet ['a'] ∧ InAlphabet ['b','z'] ∧ ['a'] < ['b','z'] ∧
      ¬Shortest ['a'] ['b','z'] ['a','0','i'] := by
  refine ⟨by decide,by decide,by decide,by decide,fun h => ?_⟩
  have hb := h ['b'] (by decide) (by decide) (by decide)
  simp at hb

end BlockDocs.ShortestRank
