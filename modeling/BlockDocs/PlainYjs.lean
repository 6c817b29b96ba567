import BlockDocs.YjsRegistry
import Mathlib.Data.List.Sort

/-!
# A binding that runs

Every character is a struct after the one typed before it, the text shows the
clients one after another, each in the order of its clocks, and numbers are
encoded in unary. Marks and the contents of embeds are left out.
-/

set_option autoImplicit false

namespace BlockDocs.PlainYjs
open BlockDocs.Wire BlockDocs.Crdt BlockDocs.CausalBuffer BlockDocs.YjsRegistry

/-! ## Encoding -/

def unary (n : ℕ) : Bytes := List.replicate n 1++[0]

def numbers : ℕ → Bytes → List ℕ
  | _, [] => []
  | n, b::bytes => if b = 0 then n::numbers 0 bytes else numbers (n+1) bytes

theorem numbers_unary (m n : ℕ) (rest : Bytes) :
    numbers m (unary n++rest) = (m+n)::numbers 0 rest := by
  induction n generalizing m with
  | zero => rfl
  | succ n ih =>
    have h : (1 : UInt8) ≠ 0 := by decide
    have hnext := ih (m+1)
    simp only [unary,List.replicate_succ,List.cons_append,numbers,if_neg h] at hnext ⊢
    rw [hnext,Nat.add_right_comm,Nat.add_assoc]

theorem numbers_flatMap (ns : List ℕ) : numbers 0 (ns.flatMap unary) = ns := by
  induction ns with
  | nil => rfl
  | cons n ns ih => rw [List.flatMap_cons,numbers_unary,ih,Nat.zero_add]

def putList {α : Type} (put : α → List ℕ) (xs : List α) : List ℕ := xs.length::xs.flatMap put

def take {α : Type} (read : List ℕ → Option (α × List ℕ)) : ℕ → List ℕ → Option (List α × List ℕ)
  | 0, ns => some ([],ns)
  | k+1, ns => do
    let (x,ns) ← read ns
    let (xs,ns) ← take read k ns
    return (x::xs,ns)

def readList {α : Type} (read : List ℕ → Option (α × List ℕ)) :
    List ℕ → Option (List α × List ℕ)
  | [] => none
  | k::ns => take read k ns

theorem readList_putList {α : Type} {put : α → List ℕ} {read : List ℕ → Option (α × List ℕ)}
    (h : ∀ x rest, read (put x++rest) = some (x,rest)) (xs : List α) (rest : List ℕ) :
    readList read (putList put xs++rest) = some (xs,rest) := by
  show take read xs.length (xs.flatMap put++rest) = some (xs,rest)
  induction xs with
  | nil => rfl
  | cons x xs ih =>
    rw [List.flatMap_cons,List.append_assoc,List.length_cons,take,h]
    simp [ih]

def putId (i : StructId) : List ℕ := [i.client,i.clock]

def readId : List ℕ → Option (StructId × List ℕ)
  | client::clock::ns => some (⟨client,clock⟩,ns)
  | _ => none

theorem readId_putId (i : StructId) (rest : List ℕ) : readId (putId i++rest) = some (i,rest) := rfl

def putItem (x : Item Char) : List ℕ := x.content.toNat::putId x.id++putList putId x.origins

def readItem : List ℕ → Option (Item Char × List ℕ)
  | [] => none
  | code::ns => do
    let (i,ns) ← readId ns
    let (origins,ns) ← readList readId ns
    return (⟨i,origins,Char.ofNat code⟩,ns)

theorem readItem_putItem (x : Item Char) (rest : List ℕ) :
    readItem (putItem x++rest) = some (x,rest) := by
  obtain ⟨i,origins,c⟩ := x
  have horigins := readList_putList readId_putId origins rest
  simp only [putItem,List.cons_append,List.append_assoc,readItem,readId_putId,Option.bind_eq_bind,
    Option.bind_some,horigins,Char.ofNat_toNat]
  rfl

def encode (u : Update Char) : Bytes :=
  (putList putItem u.items++putList putId u.deletes).flatMap unary

def decode (bytes : Bytes) : Option (Update Char) := do
  let (items,ns) ← readList readItem (numbers 0 bytes)
  let (deletes,_) ← readList readId ns
  return ⟨items,deletes⟩

theorem decode_encode (u : Update Char) : decode (encode u) = some u := by
  have hdeletes := readList_putList readId_putId u.deletes []
  rw [List.append_nil] at hdeletes
  simp only [decode,encode,numbers_flatMap,readList_putList readItem_putItem,Option.bind_eq_bind,
    Option.bind_some,hdeletes]
  rfl

theorem encode_ne_nil (u : Update Char) : encode u ≠ [] := by
  simp [encode,putList,unary]

/-! ## Text -/

def TextCall.chars : TextCall → List Char
  | .insert _ s _ => s.toList
  | .insertEmbed _ _ => [Char.ofNat 0xFFFC]

theorem chars_nil (call : TextCall) : TextCall.chars call = [] ↔ call.isBlank = true := by
  cases call with
  | insert index s format =>
    show s.toList = [] ↔ decide (s = "") = true
    rw [decide_eq_true_iff]
    exact String.toList_eq_nil_iff
  | insertEmbed index embed =>
    exact ⟨fun h => (by cases h),fun h => (by cases h)⟩

def typed (client : ℕ) : ℕ → List Char → List (Item Char)
  | _, [] => []
  | clock, c::cs =>
    ⟨⟨client,clock⟩,if clock = 0 then [] else [⟨client,clock-1⟩],c⟩::typed client (clock+1) cs

def seed (client : ℕ) (calls : List TextCall) : List (Item Char) :=
  typed client 0 (calls.flatMap TextCall.chars)

def Earlier (x y : Item Char) : Prop :=
  x.id.client < y.id.client ∨ x.id.client = y.id.client ∧ x.id.clock ≤ y.id.clock

instance : DecidableRel Earlier := fun _ _ => inferInstanceAs (Decidable (_ ∨ _ ∧ _))

instance : Std.Total Earlier where
  total x y := by unfold Earlier; omega

instance : IsTrans (Item Char) Earlier where
  trans x y z := by unfold Earlier; omega

def shown (store : List (Item Char)) (deletes : List StructId) : List Char :=
  ((store.insertionSort Earlier).filter (fun x => x.id ∉ deletes)).map Item.content

def text (store : List (Item Char)) (deletes : List StructId) : List (Chunk × Option JsonObj) :=
  if shown store deletes = [] then []
  else [(.text (String.ofList (shown store deletes)),none)]

theorem typed_ids (client clock : ℕ) (cs : List Char) : (typed client clock cs).map Item.id =
    (List.range' clock (typed client clock cs).length).map (StructId.mk client) := by
  induction cs generalizing clock with
  | nil => rfl
  | cons c cs ih => simp [typed,ih,List.range'_succ]

theorem typed_content (client clock : ℕ) (cs : List Char) :
    (typed client clock cs).map Item.content = cs := by
  induction cs generalizing clock with
  | nil => rfl
  | cons c cs ih => rw [typed,List.map_cons,ih]

theorem typed_later (client clock : ℕ) (cs : List Char) :
    ∀ x ∈ typed client clock cs, x.id.client = client ∧ clock ≤ x.id.clock := by
  induction cs generalizing clock with
  | nil => exact fun x hx => absurd hx List.not_mem_nil
  | cons c cs ih =>
    intro x hx
    rcases List.mem_cons.mp hx with rfl | hx
    · exact ⟨rfl,le_rfl⟩
    · obtain ⟨hclient,hclock⟩ := ih (clock+1) x hx
      exact ⟨hclient,by omega⟩

theorem typed_sorted (client clock : ℕ) (cs : List Char) :
    (typed client clock cs).Pairwise Earlier := by
  induction cs generalizing clock with
  | nil => exact List.Pairwise.nil
  | cons c cs ih =>
    refine List.Pairwise.cons (fun x hx => ?_) (ih (clock+1))
    obtain ⟨hclient,hclock⟩ := typed_later client (clock+1) cs x hx
    exact .inr ⟨hclient.symm,(Nat.le_succ clock).trans hclock⟩

theorem shown_typed (client : ℕ) (cs : List Char) : shown (typed client 0 cs) [] = cs := by
  rw [shown,(typed_sorted client 0 cs).insertionSort_eq]
  simp [typed_content]

theorem shown_perm {store other : List (Item Char)} {deletes gone : List StructId}
    (hperm : store.Perm other) (hone : (store.map Item.id).Nodup)
    (hgone : ∀ i, i ∈ deletes ↔ i ∈ gone) : shown store deletes = shown other gone := by
  have hsort : store.insertionSort Earlier = other.insertionSort Earlier := by
    refine List.Perm.eq_of_pairwise (fun x y hx hy hxy hyx => ?_)
      (List.pairwise_insertionSort Earlier store) (List.pairwise_insertionSort Earlier other)
      ((List.perm_insertionSort Earlier store).trans
        (hperm.trans (List.perm_insertionSort Earlier other).symm))
    have hx : x ∈ store := (List.mem_insertionSort Earlier).mp hx
    have hy : y ∈ store := hperm.mem_iff.mpr ((List.mem_insertionSort Earlier).mp hy)
    have hid : x.id = y.id := by
      unfold Earlier at hxy hyx
      exact StructId.ext (by omega) (by omega)
    exact List.inj_on_of_nodup_map hone hx hy hid
  rw [shown,shown,hsort]
  congr 2
  funext x
  simp [hgone]

def plain : Yjs where
  Content := Char
  seed := seed
  integrate store incoming := settle Item.id Item.needs incoming.length store incoming
  text := text
  encode := encode
  decode := decode
  seed_ids client calls := by
    rw [seed,typed_ids,List.range_eq_range']
  seed_nil client calls := by
    have hnil : ∀ cs, typed client 0 cs = [] ↔ cs = [] := by
      intro cs
      cases cs <;> simp [typed]
    rw [seed,hnil,List.flatMap_eq_nil_iff]
    exact forall_congr' fun call => imp_congr_right fun _ => chars_nil call
  seed_text client other calls := by
    simp only [text,seed,shown_typed]
  integrate_settles store incoming := settle_settles le_rfl
  text_perm store other deletes gone hperm hone hgone := by
    rw [text,text,shown_perm hperm hone hgone]
  encode_ne_nil := encode_ne_nil
  decode_encode := decode_encode

end BlockDocs.PlainYjs
