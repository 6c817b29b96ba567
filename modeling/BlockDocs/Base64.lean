import Mathlib.Data.List.DropRight
import Mathlib.Tactic

/-!
# Base64

The encoder and two decoders that disagree outside the encoder's image: the
forgiving decoder of the browsers, which rejects, and the decoder of Node
buffers, which skips. Both read an encoded text back.
-/

set_option autoImplicit false

namespace BlockDocs.Base64

def symbol (n : ℕ) : Char :=
  if n < 26 then Char.ofNat (n+65)
  else if n < 52 then Char.ofNat (n+71)
  else if n < 62 then Char.ofNat (n-4)
  else if n = 62 then '+' else '/'

def sextet (c : Char) : Option ℕ :=
  if 'A' ≤ c ∧ c ≤ 'Z' then some (c.toNat-65)
  else if 'a' ≤ c ∧ c ≤ 'z' then some (c.toNat-71)
  else if '0' ≤ c ∧ c ≤ '9' then some (c.toNat+4)
  else if c = '+' then some 62 else if c = '/' then some 63 else none

/-- Node also reads the URL-safe symbols. -/
def urlSextet (c : Char) : Option ℕ :=
  if c = '-' then some 62 else if c = '_' then some 63 else sextet c

def asciiSpace (c : Char) : Bool :=
  c = '\t' || c = '\n' || c = '\x0c' || c = '\r' || c = ' '

theorem sextet_symbol {n : ℕ} (h : n < 64) : sextet (symbol n) = some n := by
  have hall : ∀ i : Fin 64, sextet (symbol i) = some i.val := by decide
  exact hall ⟨n,h⟩

theorem symbol_plain {n : ℕ} (h : n < 64) :
    symbol n ≠ '=' ∧ symbol n ≠ '-' ∧ symbol n ≠ '_' ∧ asciiSpace (symbol n) = false := by
  have hall : ∀ i : Fin 64, symbol i ≠ '=' ∧ symbol i ≠ '-' ∧ symbol i ≠ '_' ∧
      asciiSpace (symbol i) = false := by decide
  exact hall ⟨n,h⟩

def sextets : List UInt8 → List ℕ
  | a::b::c::rest =>
    a.toNat/4::(a.toNat%4*16+b.toNat/16)::(b.toNat%16*4+c.toNat/64)::c.toNat%64::sextets rest
  | [a,b] => [a.toNat/4,a.toNat%4*16+b.toNat/16,b.toNat%16*4]
  | [a] => [a.toNat/4,a.toNat%4*16]
  | [] => []

/-- The bits of an incomplete group that do not fill an octet are dropped. -/
def octets : List ℕ → List UInt8
  | a::b::c::d::rest =>
    UInt8.ofNat (a*4+b/16)::UInt8.ofNat (b%16*16+c/4)::UInt8.ofNat (c%4*64+d)::octets rest
  | [a,b,c] => [UInt8.ofNat (a*4+b/16),UInt8.ofNat (b%16*16+c/4)]
  | [a,b] => [UInt8.ofNat (a*4+b/16)]
  | [_] => []
  | [] => []

theorem sextets_small (bytes : List UInt8) : ∀ n ∈ sextets bytes, n < 64 := by
  induction bytes using sextets.induct with
  | case1 a b c rest ih =>
    have ha := a.toNat_lt
    have hb := b.toNat_lt
    have hc := c.toNat_lt
    intro n hn
    simp only [sextets,List.mem_cons] at hn
    rcases hn with h | h | h | h | h
    · omega
    · omega
    · omega
    · omega
    · exact ih n h
  | case2 a b =>
    have ha := a.toNat_lt
    have hb := b.toNat_lt
    intro n hn
    simp only [sextets,List.mem_cons,List.not_mem_nil,or_false] at hn
    omega
  | case3 a =>
    have ha := a.toNat_lt
    intro n hn
    simp only [sextets,List.mem_cons,List.not_mem_nil,or_false] at hn
    omega
  | case4 => simp [sextets]

theorem octet_eq {n : ℕ} {b : UInt8} (h : n = b.toNat) : UInt8.ofNat n = b := by
  rw [h]; exact UInt8.ofNat_toNat

theorem octets_sextets (bytes : List UInt8) : octets (sextets bytes) = bytes := by
  induction bytes using sextets.induct with
  | case1 a b c rest ih =>
    have hb := b.toNat_lt
    have hc := c.toNat_lt
    have h0 := octet_eq (show a.toNat/4*4+(a.toNat%4*16+b.toNat/16)/16 = a.toNat by omega)
    have h1 := octet_eq (show (a.toNat%4*16+b.toNat/16)%16*16+
      (b.toNat%16*4+c.toNat/64)/4 = b.toNat by omega)
    have h2 := octet_eq (show (b.toNat%16*4+c.toNat/64)%4*64+c.toNat%64 = c.toNat by omega)
    simp only [sextets,octets,h0,h1,h2,ih]
  | case2 a b =>
    have hb := b.toNat_lt
    have h0 := octet_eq (show a.toNat/4*4+(a.toNat%4*16+b.toNat/16)/16 = a.toNat by omega)
    have h1 := octet_eq (show (a.toNat%4*16+b.toNat/16)%16*16+b.toNat%16*4/4 = b.toNat by omega)
    simp only [sextets,octets,h0,h1]
  | case3 a =>
    have h0 := octet_eq (show a.toNat/4*4+a.toNat%4*16/16 = a.toNat by omega)
    simp only [sextets,octets,h0]
  | case4 => rfl

def padding (n : ℕ) : List Char := List.replicate ((3-n%3)%3) '='

def encode (bytes : List UInt8) : List Char :=
  (sextets bytes).map symbol++padding bytes.length

theorem encode_length (bytes : List UInt8) :
    (encode bytes).length = 4*((bytes.length+2)/3) := by
  induction bytes using sextets.induct with
  | case1 a b c rest ih =>
    simp only [encode,padding,List.length_append,List.length_map,
      List.length_replicate,sextets,List.length_cons] at ih ⊢
    omega
  | case2 a b => simp [encode,sextets,padding]
  | case3 a => simp [encode,sextets,padding]
  | case4 => rfl

/-- Base64 takes more symbols than there are octets. -/
theorem length_lt_encode {bytes : List UInt8} (h : bytes ≠ []) :
    bytes.length < (encode bytes).length := by
  have hpos := List.length_pos_iff.mpr h
  rw [encode_length]
  omega

/-! The octets of a text of code units below 256, as `btoa` and `atob` use it. -/

def latin1 (bytes : List UInt8) : List Char := bytes.map (fun b => Char.ofNat b.toNat)

def codeUnits (s : List Char) : List UInt8 := s.map (fun c => UInt8.ofNat c.toNat)

theorem charCode_latin1 (b : UInt8) : (Char.ofNat b.toNat).toNat = b.toNat := by
  have hb := b.toNat_lt
  have hvalid : b.toNat.isValidChar := Or.inl (by omega)
  rw [Char.ofNat,dif_pos hvalid]
  rfl

theorem codeUnits_latin1 (bytes : List UInt8) : codeUnits (latin1 bytes) = bytes := by
  have hunit : ∀ b : UInt8, UInt8.ofNat (Char.ofNat b.toNat).toNat = b :=
    fun b => octet_eq (charCode_latin1 b)
  simp only [codeUnits,latin1,List.map_map]
  exact List.map_id'' hunit bytes

/-- `InvalidCharacterError` is nothing. -/
def btoa (s : List Char) : Option (List Char) :=
  if s.all (fun c => c.toNat < 256) then some (encode (codeUnits s)) else none

theorem btoa_latin1 (bytes : List UInt8) : btoa (latin1 bytes) = some (encode bytes) := by
  have hall : (latin1 bytes).all (fun c => c.toNat < 256) = true := by
    rw [List.all_eq_true]
    intro c hc
    obtain ⟨b,_,rfl⟩ := List.mem_map.mp hc
    rw [charCode_latin1]
    exact decide_eq_true b.toNat_lt
  rw [btoa,if_pos hall,codeUnits_latin1]

def dropEquals (s : List Char) : List Char := if s.getLast? = some '=' then s.dropLast else s

def forgivingDecode (s : List Char) : Option (List UInt8) :=
  let data := s.filter (fun c => !asciiSpace c)
  let data := if data.length%4 = 0 then dropEquals (dropEquals data) else data
  if data.length%4 = 1 then none else (data.mapM sextet).map octets

def atob (s : List Char) : Option (List Char) := (forgivingDecode s).map latin1

/-- `Buffer.from(s, 'base64')` reads up to the first `=` and skips what is no symbol. -/
def bufferFrom (s : List Char) : List UInt8 :=
  octets ((s.takeWhile (· ≠ '=')).filterMap urlSextet)

theorem symbols_ne_equals (bytes : List UInt8) : '=' ∉ (sextets bytes).map symbol := by
  intro h
  obtain ⟨n,hn,heq⟩ := List.mem_map.mp h
  exact (symbol_plain (sextets_small bytes n hn)).1 heq

theorem encode_no_space (bytes : List UInt8) :
    (encode bytes).filter (fun c => !asciiSpace c) = encode bytes := by
  rw [List.filter_eq_self]
  intro c hc
  rcases List.mem_append.mp hc with h | h
  · obtain ⟨n,hn,rfl⟩ := List.mem_map.mp h
    simp [(symbol_plain (sextets_small bytes n hn)).2.2.2]
  · rw [List.eq_of_mem_replicate h]
    rfl

theorem dropEquals_self {s : List Char} (h : '=' ∉ s) : dropEquals s = s := by
  rw [dropEquals,if_neg]
  intro hl
  exact h (List.mem_of_getLast? hl)

theorem dropEquals_concat (s : List Char) : dropEquals (s++['=']) = s := by simp [dropEquals]

theorem dropEquals_padding {s : List Char} (h : '=' ∉ s) (n : ℕ) :
    dropEquals (dropEquals (s++padding n)) = s := by
  have hn := Nat.mod_lt n (show 0 < 3 by omega)
  unfold padding
  interval_cases hk : n%3
  · simp [dropEquals_self h]
  · have hs : s++List.replicate ((3-1)%3) '=' = (s++['='])++['='] := by simp
    rw [hs,dropEquals_concat,dropEquals_concat]
  · have hs : s++List.replicate ((3-2)%3) '=' = s++['='] := by simp
    rw [hs,dropEquals_concat,dropEquals_self h]

theorem mapM_symbols {ns : List ℕ} (h : ∀ n ∈ ns, n < 64) :
    (ns.map symbol).mapM sextet = some ns := by
  induction ns with
  | nil => rfl
  | cons n ns ih =>
    have hn := sextet_symbol (h n (by simp))
    have hns := ih (fun i hi => h i (by simp [hi]))
    simp [hn,hns]

theorem sextets_length (bytes : List UInt8) : (sextets bytes).length%4 ≠ 1 := by
  induction bytes using sextets.induct with
  | case1 a b c rest ih => simp only [sextets,List.length_cons]; omega
  | case2 a b => simp [sextets]
  | case3 a => simp [sextets]
  | case4 => simp [sextets]

theorem forgivingDecode_encode (bytes : List UInt8) :
    forgivingDecode (encode bytes) = some bytes := by
  have hlen : (encode bytes).length%4 = 0 := by rw [encode_length]; omega
  have hdata := dropEquals_padding (symbols_ne_equals bytes) bytes.length
  have hlast : ((sextets bytes).map symbol).length%4 ≠ 1 := by
    rw [List.length_map]; exact sextets_length bytes
  simp only [forgivingDecode,encode_no_space,hlen,if_true]
  rw [encode,hdata,if_neg hlast,mapM_symbols (sextets_small bytes)]
  simp [octets_sextets]

theorem atob_encode (bytes : List UInt8) : atob (encode bytes) = some (latin1 bytes) := by
  rw [atob,forgivingDecode_encode]
  rfl

theorem bufferFrom_encode (bytes : List UInt8) : bufferFrom (encode bytes) = bytes := by
  have hpad : (padding bytes.length).takeWhile (· ≠ '=') = [] := by
    unfold padding
    cases (3-bytes.length%3)%3 <;> simp [List.replicate_succ]
  have htake : (encode bytes).takeWhile (· ≠ '=') = (sextets bytes).map symbol := by
    rw [encode,List.takeWhile_append_of_pos,hpad,List.append_nil]
    intro c hc
    exact decide_eq_true (ne_of_mem_of_not_mem hc (symbols_ne_equals bytes))
  have hread : ((sextets bytes).map symbol).filterMap urlSextet = sextets bytes := by
    rw [List.filterMap_map]
    refine (List.filterMap_congr ?_).trans List.filterMap_some
    intro n hn
    have hsmall := sextets_small bytes n hn
    obtain ⟨_,hdash,hlow,_⟩ := symbol_plain hsmall
    simp [urlSextet,hdash,hlow,sextet_symbol hsmall]
  rw [bufferFrom,htake,hread,octets_sextets]

end BlockDocs.Base64
