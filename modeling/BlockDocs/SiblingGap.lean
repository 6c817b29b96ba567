import BlockDocs.EarlyRanks

/-!
# The browser's rank in the gap between two siblings

Behind `prev` the browser takes characters from `a` on, the server also digits. So
there is no room for the browser where the next rank goes on from `prev` with
letters `a` alone, or with these and then a digit.
-/

set_option autoImplicit false

namespace BlockDocs.SiblingGap
open BlockDocs.LexoRank BlockDocs.EarlyRanks
open BlockDocs.ClientRank (Early overrun midpointFrom midpoint_overrun midpoint_between
  midpoint_append)

variable {prev next w ds : Rank} {c d : Char}

/-- `next` goes on from `prev` with letters `a` and then ends, or with a character below. -/
def Crowded (prev next : Rank) : Prop :=
  ∃ k rest, next = prev++(List.replicate k 'a'++rest) ∧ ∀ d ∈ rest.head?, d < 'a'

theorem crowded_cons : Crowded (c::prev) (d::ds) ↔ c = d ∧ Crowded prev ds := by
  constructor
  · rintro ⟨k,rest,heq,hrest⟩
    obtain ⟨rfl,htail⟩ := List.cons.inj heq
    exact ⟨rfl,k,rest,htail,hrest⟩
  · rintro ⟨rfl,k,rest,rfl,hrest⟩
    exact ⟨k,rest,rfl,hrest⟩

theorem crowded_nil_cons : Crowded [] (d::ds) ↔ (d = 'a' ∧ Crowded [] ds) ∨ d < 'a' := by
  constructor
  · rintro ⟨k,rest,heq,hrest⟩
    cases k with
    | zero =>
      rw [List.nil_append,List.replicate_zero,List.nil_append] at heq
      exact Or.inr (hrest d (by rw [← heq]; rfl))
    | succ k =>
      rw [List.nil_append,List.replicate_succ,List.cons_append] at heq
      obtain ⟨hd,hds⟩ := List.cons.inj heq
      exact Or.inl ⟨hd,k,rest,hds,hrest⟩
  · rintro (⟨rfl,k,rest,rfl,hrest⟩ | hd)
    · exact ⟨k+1,rest,rfl,hrest⟩
    · exact ⟨0,d::ds,rfl,fun _ he => Option.some.inj he ▸ hd⟩

/-- The routine goes past `next` in just these gaps. -/
theorem overrun_iff : (∃ w, overrun prev next = some w) ↔ Crowded prev next := by
  induction next generalizing prev with
  | nil =>
    cases prev with
    | nil => exact ⟨fun _ => ⟨0,[],rfl,nofun⟩,fun _ => ⟨[],rfl⟩⟩
    | cons c cs =>
      constructor
      · rintro ⟨w,hw⟩
        cases hw
      · rintro ⟨k,rest,heq,_⟩
        cases heq
  | cons d ds ih =>
    cases prev with
    | nil =>
      rw [crowded_nil_cons,← ih,overrun]
      by_cases ha : d = 'a'
      · subst ha
        simp
      · by_cases hlow : d < 'a' <;> simp [ha,hlow]
    | cons c cs =>
      rw [crowded_cons,← ih,overrun]
      by_cases hc : c = d <;> simp [hc]

theorem overrun_ge (h : overrun prev next = some w) : next ≤ w := by
  induction next generalizing prev w with
  | nil => exact not_lt.mp (List.not_lt_nil w)
  | cons d ds ih =>
    have hcons : ∀ {v : Rank}, ds ≤ v → d::ds ≤ d::v := fun hv =>
      not_lt.mp (fun hlt => (List.cons_lt_cons_iff.mp hlt).elim (lt_irrefl d)
        (fun h => absurd h.2 (not_lt_of_ge hv)))
    cases prev with
    | nil =>
      rw [overrun] at h
      split at h
      · obtain ⟨v,hv,rfl⟩ := Option.map_eq_some_iff.mp h
        exact hcons (ih hv)
      · split at h
        · next hlow =>
          cases h
          exact le_of_lt (cons_lt_of_lt hlow ds [])
        · cases h
    | cons c cs =>
      rw [overrun] at h
      split at h
      · next heq =>
        subst heq
        obtain ⟨v,hv,rfl⟩ := Option.map_eq_some_iff.mp h
        exact hcons (ih hv)
      · cases h

def Within (prev next : Option Rank) (r : Rank) : Prop :=
  (∀ p ∈ prev, p < r) ∧ ∀ n ∈ next, r < n

/-- The browser's rank falls between two of the server's exactly when their gap is
not crowded. -/
theorem client_within_iff {prev next : Option Rank} (hprev : ∀ p ∈ prev, Made p)
    (hnext : ∀ n ∈ next, Made n) (hlt : ∀ p ∈ prev, ∀ n ∈ next, p < n) :
    Within prev next (ClientRank.midpoint prev next) ↔
      ∀ n ∈ next, ¬Crowded (prev.getD []) n := by
  have hfirst : Early (prev.getD []) := by
    cases prev with
    | none => exact early_nil
    | some p => exact made_early (hprev p rfl)
  cases next with
  | none =>
    refine ⟨fun _ => nofun,fun _ => ⟨?_,nofun⟩⟩
    rintro p hp
    obtain rfl := Option.mem_def.mp hp
    exact midpoint_append 0 hfirst
  | some n =>
    have hlast : Early n := made_early (hnext n rfl)
    have hle : prev.getD [] ≤ n := by
      cases prev with
      | none => exact not_lt.mp (List.not_lt_nil n)
      | some p => exact (hlt p rfl n rfl).le
    constructor
    · rintro ⟨_,hbelow⟩ _ hn hcrowded
      obtain rfl := Option.some.inj hn
      obtain ⟨w,hw⟩ := overrun_iff.mpr hcrowded
      have hmid : ClientRank.midpoint prev (some n) = w++['n'] := midpoint_overrun 0 hw
      have habove : w < w++['n'] := lt_append_cons w 'n' []
      exact absurd (hmid ▸ hbelow n rfl) (lt_asymm (lt_of_le_of_lt (overrun_ge hw) habove))
    · intro hroom
      have hnone : overrun (prev.getD []) n = none := by
        by_contra hsome
        exact hroom n rfl (overrun_iff.mp (Option.ne_none_iff_exists'.mp hsome))
      obtain ⟨habove,hbelow⟩ := midpoint_between 0 hfirst hlast hle hnone
      refine ⟨?_,fun _ hn => Option.some.inj hn ▸ hbelow⟩
      rintro p hp
      obtain rfl := Option.mem_def.mp hp
      exact habove

theorem made_seed : Made ['m'] :=
  @Made.midpoint none none _ nofun nofun rfl

theorem made_after : Made ['m','i'] :=
  @Made.midpoint (some ['m']) none _ (fun _ hl => Option.some.inj hl ▸ made_seed) nofun rfl

/-- The rank of a block that comes between the first two. -/
theorem made_between : Made ['m','9'] :=
  @Made.midpoint (some ['m']) (some ['m','i']) _
    (fun _ hl => Option.some.inj hl ▸ made_seed) (fun _ hr => Option.some.inj hr ▸ made_after)
    (by decide)

theorem within_before_letter : Within (some ['m']) (some ['m','i'])
      (ClientRank.midpoint (some ['m']) (some ['m','i'])) ↔
    ∀ n ∈ some ['m','i'], ¬Crowded ['m'] n :=
  @client_within_iff (some ['m']) _ (fun _ hl => Option.some.inj hl ▸ made_seed)
    (fun _ hr => Option.some.inj hr ▸ made_after) (by decide)

theorem past_digit : ¬∀ prev next : Option Rank, (∀ p ∈ prev, Made p) → (∀ n ∈ next, Made n) →
    (∀ p ∈ prev, ∀ n ∈ next, p < n) → Within prev next (ClientRank.midpoint prev next) := by
  intro hall
  have hwithin := hall (some ['m']) (some ['m','9'])
    (fun _ hl => Option.some.inj hl ▸ made_seed) (fun _ hr => Option.some.inj hr ▸ made_between)
    (by decide)
  exact absurd (hwithin.2 ['m','9'] rfl) (by decide +kernel)

end BlockDocs.SiblingGap
