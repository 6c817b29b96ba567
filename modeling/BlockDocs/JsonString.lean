import Mathlib.Data.List.Basic
import Mathlib.Data.Char
import Mathlib.Tactic

/-!
# Quoted strings

`JSON.stringify` writes a string character by character. No character's text starts with
that of another one, so the string can be told from its quoted form, whatever follows.
-/

set_option autoImplicit false

namespace BlockDocs.JsonString

/-! ## Codes that can be read from the left -/

section Code

variable {α β : Type*} {code : α → List β}

structure PrefixFree (code : α → List β) : Prop where
  apart : ∀ a b, code a <+: code b → a = b
  filled : ∀ a, code a ≠ []

theorem prefixFree_append (h : PrefixFree code) {a b : α} {s t : List β}
    (heq : code a++s = code b++t) : a = b ∧ s = t := by
  have ha : code a <+: code b++t := heq ▸ List.prefix_append _ _
  have hab : a = b := by
    rcases List.prefix_or_prefix_of_prefix ha (List.prefix_append _ _) with hp | hp
    · exact h.apart a b hp
    · exact (h.apart b a hp).symm
  subst hab
  exact ⟨rfl,List.append_cancel_left heq⟩

theorem flatMap_injective (h : PrefixFree code) {as bs : List α}
    (heq : as.flatMap code = bs.flatMap code) : as = bs := by
  induction as generalizing bs with
  | nil =>
    cases bs with
    | nil => rfl
    | cons b bs => exact absurd (List.append_eq_nil_iff.mp heq.symm).1 (h.filled b)
  | cons a as ih =>
    cases bs with
    | nil => exact absurd (List.append_eq_nil_iff.mp heq).1 (h.filled a)
    | cons b bs =>
      obtain ⟨rfl,hrest⟩ := prefixFree_append h heq
      rw [ih hrest]

end Code

/-! ## One character -/

def quotationMark : Char := Char.ofNat 0x22

def reverseSolidus : Char := Char.ofNat 0x5C

def shortEscapes : List (ℕ × Char) :=
  [(0x08,'b'),(0x09,'t'),(0x0A,'n'),(0x0C,'f'),(0x0D,'r'),(0x22,quotationMark),
   (0x5C,reverseSolidus)]

def hex4 (n : ℕ) : List Char := List.leftpad 4 '0' (Nat.toDigits 16 n)

def escape (c : Char) : List Char :=
  match shortEscapes.lookup c.toNat with
  | some d => [reverseSolidus,d]
  | none => if c.toNat < 0x20 then reverseSolidus:: 'u'::hex4 c.toNat else [c]

def quote (s : List Char) : List Char := quotationMark::s.flatMap escape++[quotationMark]

def escaped : List ℕ := List.range 0x20++[0x22,0x5C]

theorem escaped_lookup {n : ℕ} (h : n ∉ escaped) : shortEscapes.lookup n = none := by
  have hne : ∀ p ∈ shortEscapes, p.1 ≠ n := by
    rintro p hp rfl
    have hall : ∀ q ∈ shortEscapes, q.1 ∈ escaped := by decide
    exact h (hall p hp)
  rw [List.lookup_eq_none_iff]
  intro p hp
  simpa using (hne p hp).symm

theorem escape_plain {c : Char} (h : c.toNat ∉ escaped) : escape c = [c] := by
  have hrange : ¬c.toNat < 0x20 :=
    fun hlt => h (List.mem_append_left _ (List.mem_range.mpr hlt))
  simp only [escape,escaped_lookup h,if_neg hrange]

theorem escape_escaped {n : ℕ} (h : n ∈ escaped) :
    ∃ d rest, escape (Char.ofNat n) = reverseSolidus::d::rest := by
  have hall : ∀ n ∈ escaped, ((escape (Char.ofNat n)).head? = some reverseSolidus ∧
      2 ≤ (escape (Char.ofNat n)).length) := by decide
  obtain ⟨hhead,hlength⟩ := hall n h
  cases hescape : escape (Char.ofNat n) with
  | nil => simp [hescape] at hhead
  | cons x l =>
    rw [hescape] at hhead hlength
    cases l with
    | nil => simp at hlength
    | cons d rest =>
      cases hhead
      exact ⟨d,rest,rfl⟩

theorem escapes_apart : ∀ m ∈ escaped, ∀ n ∈ escaped,
    escape (Char.ofNat m) <+: escape (Char.ofNat n) → m = n := by
  decide +kernel

theorem escape_prefixFree : PrefixFree escape where
  apart := by
    intro c d h
    by_cases hc : c.toNat ∈ escaped
    · by_cases hd : d.toNat ∈ escaped
      · have heq : c.toNat = d.toNat := by
          apply escapes_apart _ hc _ hd
          rwa [Char.ofNat_toNat,Char.ofNat_toNat]
        exact Char.toNat_inj.mp heq
      · obtain ⟨x,rest,hesc⟩ := escape_escaped hc
        rw [Char.ofNat_toNat] at hesc
        rw [hesc,escape_plain hd] at h
        have hlength := h.length_le
        simp at hlength
    · by_cases hd : d.toNat ∈ escaped
      · obtain ⟨x,rest,hesc⟩ := escape_escaped hd
        rw [Char.ofNat_toNat] at hesc
        rw [hesc,escape_plain hc] at h
        -- the reverse solidus itself is escaped
        have hcx : c = reverseSolidus := (List.cons_prefix_cons.mp h).1
        exact absurd (hcx ▸ (by decide : reverseSolidus.toNat ∈ escaped)) hc
      · rw [escape_plain hc,escape_plain hd] at h
        exact (List.cons_prefix_cons.mp h).1
  filled := by
    intro c
    by_cases hc : c.toNat ∈ escaped
    · obtain ⟨x,rest,hesc⟩ := escape_escaped hc
      rw [Char.ofNat_toNat] at hesc
      rw [hesc]
      exact List.cons_ne_nil _ _
    · rw [escape_plain hc]
      exact List.cons_ne_nil _ _

theorem quote_injective : Function.Injective quote := by
  intro s t h
  exact flatMap_injective escape_prefixFree (List.append_cancel_right (List.cons.inj h).2)

end BlockDocs.JsonString
