import BlockDocs.GuardedRun
import BlockDocs.PlainYjs

/-!
# Updates that others can integrate

A document that starts without structs emits every struct it makes. One that is
seeded when it is opened keeps the seeded structs to itself, and what it emits
afterwards stands on them.
-/

set_option autoImplicit false

namespace BlockDocs.CausalClosure
open BlockDocs.Wire BlockDocs.Crdt BlockDocs.DeltaPipeline BlockDocs.CausalBuffer
open BlockDocs.YjsRegistry BlockDocs.PlainYjs BlockDocs.GuardedRun

variable {C : Type}

/-! ## The property -/

def structs (us : List (Update C)) : List (Item C) := us.flatMap Update.items

structure RestsOn (sent : List (Update C)) (u : Update C) : Prop where
  items : Causal Item.id Item.needs (structs sent) u.items
  deletes : ∀ i ∈ u.deletes, Stored Item.id (structs sent++u.items) i

def Closed : List (Update C) → List (Update C) → Prop
  | _, [] => True
  | sent, u::us => RestsOn sent u ∧ Closed (sent++[u]) us

structure Integrated (r : Replica C) (u : Update C) : Prop where
  items : ∀ x ∈ u.items, Stored Item.id r.store x.id
  deletes : ∀ i ∈ u.deletes, Stored Item.id r.store i

def TakesIn (emitted received : List (Update C)) (r : Replica C) : Prop :=
  ∀ before u after, emitted = before++u::after → (∀ v ∈ before, v ∈ received) →
    u ∈ received → Integrated r u

def SameUpdates (us vs : List (Update C)) : Prop := ∀ u, u ∈ us ↔ u ∈ vs

structure Consistent (yjs : Yjs) (w : World yjs.Content) : Prop where
  closed : Closed [] w.emitted
  clients : ∀ k d, (w.registries k).entry = some d → TakesIn w.emitted d.received d.doc
  consumer : ∀ r, makeDoc (pycrdt yjs) w.state = some r → TakesIn w.emitted w.consumed r
  agree : ∀ k l d e, (w.registries k).entry = some d → (w.registries l).entry = some e →
    d.initial = e.initial → SameUpdates d.received e.received → d.doc.text yjs = e.doc.text yjs
  follows : ∀ k d r, (w.registries k).entry = some d → Blank d.initial →
    makeDoc (pycrdt yjs) w.state = some r → SameUpdates d.received w.consumed →
    d.doc.text yjs = (pycrdt yjs).diff r

/-! ## The condition -/

def flushes (now : ℕ) (buffer : List BufferedDelta) : Prop := ∃ b ∈ buffer, ¬ b.expired now

/-- A document that was opened with something to show neither edits nor takes in. -/
def Unseeded (w : World C) : Action C → Prop
  | .ensure k now _ initial => (w.registries k).entry = none →
      flushes now (w.registries k).buffer → Blank initial
  | .edit k _ => ∀ d, (w.registries k).entry = some d → Blank d.initial
  | .receive k _ _ => ∀ d, (w.registries k).entry = some d → Blank d.initial
  | _ => True

/-! ## Lists of updates -/

variable {us vs : List (Update C)} {u : Update C}

theorem structs_append (us vs : List (Update C)) : structs (us++vs) = structs us++structs vs :=
  List.flatMap_append

theorem structs_concat (us : List (Update C)) (u : Update C) :
    structs (us++[u]) = structs us++u.items := by
  rw [structs_append]
  simp [structs]

theorem structs_subset (h : ∀ u ∈ us, u ∈ vs) {x : Item C} (hx : x ∈ structs us) :
    x ∈ structs vs := by
  obtain ⟨u,hu,hxu⟩ := List.mem_flatMap.mp hx
  exact List.mem_flatMap.mpr ⟨u,h u hu,hxu⟩

theorem structs_congr (h : SameUpdates us vs) (x : Item C) : x ∈ structs us ↔ x ∈ structs vs :=
  ⟨structs_subset (fun u hu => (h u).mp hu),structs_subset (fun u hu => (h u).mpr hu)⟩

theorem stored_structs_subset (h : ∀ u ∈ us, u ∈ vs) {i : StructId}
    (hi : Stored Item.id (structs us) i) : Stored Item.id (structs vs) i := by
  obtain ⟨x,hx,rfl⟩ := List.mem_map.mp hi
  exact stored_of_mem (structs_subset h hx)

theorem closed_concat {sent : List (Update C)} :
    Closed sent (us++[u]) ↔ Closed sent us ∧ RestsOn (sent++us) u := by
  induction us generalizing sent with
  | nil => simp [Closed]
  | cons v us ih => simp [Closed,ih,and_assoc]

theorem closed_prefix {sent : List (Update C)} (h : Closed sent (us++vs)) : Closed sent us := by
  induction us generalizing sent with
  | nil => trivial
  | cons v us ih => exact ⟨h.1,ih h.2⟩

theorem closed_causal {sent : List (Update C)} (h : Closed sent us) :
    Causal Item.id Item.needs (structs sent) (structs us) := by
  induction us generalizing sent with
  | nil => trivial
  | cons u us ih =>
    show Causal Item.id Item.needs (structs sent) (u.items++structs us)
    rw [causal_append,← structs_concat]
    exact ⟨h.1.items,ih h.2⟩

/-! ## Documents that follow a list of updates -/

def One (us : List (Update C)) : Prop := Set.InjOn Item.id {x | x ∈ structs us}

structure Follows (us : List (Update C)) (r : Replica C) : Prop where
  items : Holds Item.id Item.needs (structs us) r.store r.waiting
  deletes : ∀ i, i ∈ r.deletes ↔ ∃ u ∈ us, i ∈ u.deletes

theorem One.of_subset (h : One vs) (hsub : ∀ u ∈ us, u ∈ vs) : One us :=
  Set.InjOn.mono (fun _ hx => structs_subset hsub hx) h

theorem follows_nil : Follows [] ({} : Replica C) where
  items := holds_nil
  deletes := by simp

theorem Follows.congr {r : Replica C} (h : Follows us r) (heq : SameUpdates us vs) :
    Follows vs r where
  items := h.items.congr (structs_congr heq)
  deletes i := (h.deletes i).trans (exists_congr fun u => and_congr_left fun _ => heq u)

theorem Follows.takesIn {r : Replica C} (h : Follows us r) (hclosed : Closed [] vs) :
    TakesIn vs us r := by
  rintro before u after rfl hbefore hu
  have hcome : ∀ v ∈ before++[u], v ∈ us := by
    intro v hv
    rcases List.mem_append.mp hv with hv | hv
    · exact hbefore v hv
    · exact List.mem_singleton.mp hv ▸ hu
  rw [List.append_cons] at hclosed
  have hprefix : Closed [] (before++[u]) := closed_prefix hclosed
  have hstored : ∀ x ∈ structs (before++[u]), Stored Item.id r.store x.id :=
    stored_of_causal h.items.stuck (closed_causal hprefix)
      (fun x hx => absurd hx List.not_mem_nil)
      (fun x hx => h.items.stored_or_waits (structs_subset hcome hx))
  rw [structs_concat] at hstored
  refine ⟨fun x hx => hstored x (List.mem_append_right _ hx),fun i hi => ?_⟩
  obtain ⟨x,hx,rfl⟩ := List.mem_map.mp ((closed_concat.mp hprefix).2.deletes i hi)
  exact hstored x hx

section Yjs
variable {yjs : Yjs} {us vs : List (Update yjs.Content)} {u : Update yjs.Content}
  {r s : Replica yjs.Content}

theorem Follows.applyUpdate (h : Follows us r) (hone : One (us++[u])) :
    Follows (us++[u]) (r.applyUpdate yjs u) := by
  unfold One at hone
  rw [structs_concat] at hone
  constructor
  · rw [structs_concat]
    exact h.items.settle hone (yjs.integrate_settles _ _)
  · intro i
    simp [Replica.applyUpdate,h.deletes i,or_and_right,exists_or]

/-- A document built from the state of another one. -/
theorem Follows.rehydrate (h : Follows us r) (hone : One us) :
    Follows us (({} : Replica yjs.Content).applyUpdate yjs r.update) := by
  have hsame : ∀ x, x ∈ []++(r.store++r.waiting) ↔ x ∈ structs us := by
    intro x
    rw [List.nil_append,List.mem_append,h.items.known x]
  constructor
  · refine Holds.congr ?_ hsame
    refine holds_nil.settle (Set.InjOn.mono (fun x hx => (hsame x).mp hx) hone) ?_
    exact yjs.integrate_settles _ _
  · exact h.deletes

theorem Follows.text_eq (h : Follows us r) (h' : Follows vs s) (hone : One us)
    (heq : SameUpdates us vs) : r.text yjs = s.text yjs := by
  have hs : Follows us s := h'.congr (fun u => (heq u).symm)
  exact yjs.text_perm _ _ _ _ (h.items.perm hs.items hone) h.items.distinct
    (fun i => (h.deletes i).trans (hs.deletes i).symm)

end Yjs

/-! ## One document -/

section Opened
variable {yjs : Yjs} {emitted : List (Update yjs.Content)} {u : Update yjs.Content}
  {d : BlockDoc yjs.Content}

/-- What the emitted updates have from this client is in the document; without
seeded structs it has all of its clocks, and with them nothing has happened. -/
structure Opened (emitted : List (Update yjs.Content)) (d : BlockDoc yjs.Content) : Prop where
  received : ∀ u ∈ d.received, u ∈ emitted
  own : ∀ x ∈ structs emitted, x.id.client = d.client →
    x ∈ structs d.received ∧ x.id.clock < d.clock
  follows : Blank d.initial → Follows d.received d.doc
  clocks : Blank d.initial → ∀ n < d.clock, Stored Item.id d.doc.store ⟨d.client,n⟩
  frozen : ¬ Blank d.initial → d = .seeded yjs d.client d.initial

theorem seed_nil_iff (yjs : Yjs) (client : ℕ) (initial : List InlineNode) :
    yjs.seed client (applyInlineNodes initial) = [] ↔ Blank initial :=
  (yjs.seed_nil client _).trans (insertNodes_blank 0 initial)

theorem seeded_blank {initial : List InlineNode} (h : Blank initial) (client : ℕ) :
    BlockDoc.seeded yjs client initial = ⟨client,0,{},initial,[]⟩ := by
  have hseed := (seed_nil_iff yjs client initial).mpr h
  simp [BlockDoc.seeded,hseed]

theorem seeded_store {initial : List InlineNode} (h : ¬ Blank initial) (client : ℕ) :
    BlockDoc.seeded yjs client initial =
      ⟨client,(yjs.seed client (applyInlineNodes initial)).length,
        { store := yjs.seed client (applyInlineNodes initial) },initial,[]⟩ := by
  have hlength : 0 < initial.length := by
    refine List.length_pos_iff.mpr ?_
    rintro rfl
    exact h (fun _ hn => absurd hn List.not_mem_nil)
  simp [BlockDoc.seeded,hlength]

theorem seeded_opened {client : ℕ} (hfresh : ∀ x ∈ structs emitted, x.id.client ≠ client)
    (initial : List InlineNode) : Opened emitted (.seeded yjs client initial) where
  received _ hu := absurd hu List.not_mem_nil
  own x hx hclient := absurd hclient (hfresh x hx)
  follows h := (seeded_blank h client).symm ▸ follows_nil
  clocks h n hn := by
    have hblank : Blank initial := h
    rw [seeded_blank hblank client] at hn
    exact absurd hn (Nat.not_lt_zero n)
  frozen _ := rfl

theorem Opened.applyUpdate (h : Opened emitted d) (hone : One emitted) (hu : u ∈ emitted)
    (hblank : Blank d.initial) : Opened emitted (d.applyUpdate yjs u) := by
  have hreceived : ∀ v ∈ d.received++[u], v ∈ emitted := by
    intro v hv
    rcases List.mem_append.mp hv with hv | hv
    · exact h.received v hv
    · exact List.mem_singleton.mp hv ▸ hu
  refine ⟨hreceived,fun x hx hclient => ?_,fun _ => ?_,fun _ n hn => ?_,fun hseeded => ?_⟩
  · obtain ⟨hown,hclock⟩ := h.own x hx hclient
    exact ⟨structs_subset (fun v hv => List.mem_append_left _ hv) hown,hclock⟩
  · exact (h.follows hblank).applyUpdate (hone.of_subset hreceived)
  · obtain ⟨new,hnew,-⟩ := (yjs.integrate_settles d.doc.store (d.doc.waiting++u.items)).grown
    show Stored Item.id (yjs.integrate d.doc.store (d.doc.waiting++u.items)).1 _
    rw [hnew]
    exact stored_append.mpr (.inl (h.clocks hblank n hn))
  · exact absurd hblank hseeded

/-- Another document has emitted the update. -/
theorem Opened.others_emit (h : Opened emitted d) (hother : ∀ x ∈ u.items, x.id.client ≠ d.client) :
    Opened (emitted++[u]) d where
  received v hv := List.mem_append_left _ (h.received v hv)
  own x hx hclient := by
    rw [structs_concat] at hx
    rcases List.mem_append.mp hx with hx | hx
    · exact h.own x hx hclient
    · exact absurd hclient (hother x hx)
  follows := h.follows
  clocks := h.clocks
  frozen := h.frozen

/-! ## A local transaction -/

theorem transaction_id (ht : Transaction d u) {x : Item yjs.Content} (hx : x ∈ u.items) :
    x.id.client = d.client ∧ d.clock ≤ x.id.clock ∧ x.id.clock < d.clock+u.items.length := by
  have hid : x.id ∈ (List.range' d.clock u.items.length).map (StructId.mk d.client) :=
    ht.clocks ▸ List.mem_map_of_mem hx
  obtain ⟨n,hn,heq⟩ := List.mem_map.mp hid
  obtain ⟨hlow,hhigh⟩ := List.mem_range'_1.mp hn
  rw [← heq]
  exact ⟨rfl,hlow,hhigh⟩

theorem transaction_distinct (ht : Transaction d u) : (u.items.map Item.id).Nodup := by
  rw [ht.clocks]
  refine List.Nodup.map ?_ List.nodup_range'
  intro m n h
  exact (StructId.mk.inj h).2

/-- With all lower clocks in the store, the origins are the only other need. -/
theorem causal_of_origins {client : ℕ} {items store : List (Item C)} {n : ℕ}
    (hids : items.map Item.id = (List.range' n items.length).map (StructId.mk client))
    (hlower : ∀ m < n, Stored Item.id store ⟨client,m⟩)
    (horigins : Causal Item.id Item.origins store items) :
    Causal Item.id Item.needs store items := by
  induction items generalizing store n with
  | nil => trivial
  | cons x items ih =>
    rw [List.length_cons,List.range'_succ,List.map_cons,List.map_cons,List.cons.injEq] at hids
    obtain ⟨hx,hrest⟩ := hids
    refine ⟨fun i hi => ?_,ih hrest (fun m hm => ?_) horigins.2⟩
    · rcases List.mem_append.mp hi with hi | hi
      · obtain ⟨m,hm,rfl⟩ := List.mem_map.mp hi
        rw [hx] at hm ⊢
        exact hlower m (List.mem_range.mp hm)
      · exact horigins.1 i hi
    · rcases Nat.lt_succ_iff_lt_or_eq.mp hm with hm | rfl
      · exact stored_append.mpr (.inl (hlower m hm))
      · exact stored_append.mpr (.inr (hx ▸ stored_of_mem (List.mem_singleton.mpr rfl)))

theorem transaction_causal (ht : Transaction d u) (h : Opened emitted d)
    (hblank : Blank d.initial) : Causal Item.id Item.needs d.doc.store u.items :=
  causal_of_origins ht.clocks (h.clocks hblank) ht.origins

/-- An emitted struct of the client is older than the transaction. -/
theorem not_emitted (ht : Transaction d u) (h : Opened emitted d) {i : StructId}
    (hi : Stored Item.id (structs emitted) i) : ¬ Stored Item.id u.items i := by
  obtain ⟨x,hx,rfl⟩ := List.mem_map.mp hi
  intro hnew
  obtain ⟨y,hy,hxy⟩ := List.mem_map.mp hnew
  obtain ⟨hclient,hlow,-⟩ := transaction_id ht hy
  have hold := (h.own x hx (hxy ▸ hclient)).2
  rw [← hxy] at hold
  omega

theorem need_emitted (hclosed : Closed [] emitted) {x : Item yjs.Content}
    (hx : x ∈ structs emitted) {i : StructId} (hi : i ∈ x.needs) :
    Stored Item.id (structs emitted) i := by
  have hcausal := closed_causal hclosed
  obtain ⟨before,after,hsplit⟩ := List.append_of_mem hx
  rw [hsplit,causal_append] at hcausal
  have hready := hcausal.2.1 i hi
  rw [hsplit]
  rcases stored_append.mp hready with hnil | hbefore
  · exact absurd hnil List.not_mem_nil
  · exact stored_append.mpr (.inl hbefore)

theorem opened_transact (ht : Transaction d u) (h : Opened emitted d) (hclosed : Closed [] emitted)
    (hblank : Blank d.initial) : Opened (emitted++[u]) (d.transact u) := by
  have hreceived : ∀ {i}, Stored Item.id (structs d.received) i →
      Stored Item.id (structs emitted) i := stored_structs_subset h.received
  have hfollows := h.follows hblank
  refine ⟨fun v hv => ?_,fun x hx hclient => ?_,fun _ => ⟨?_,fun i => ?_⟩,fun _ n hn => ?_,
    fun hseeded => absurd hblank hseeded⟩
  · rcases List.mem_append.mp hv with hv | hv
    · exact List.mem_append_left _ (h.received v hv)
    · exact List.mem_append_right _ hv
  · show x ∈ structs (d.received++[u]) ∧ x.id.clock < d.clock+u.items.length
    rw [structs_concat] at hx ⊢
    rcases List.mem_append.mp hx with hx | hx
    · obtain ⟨hown,hclock⟩ := h.own x hx hclient
      exact ⟨List.mem_append_left _ hown,by omega⟩
    · exact ⟨List.mem_append_right _ hx,(transaction_id ht hx).2.2⟩
  · show Holds Item.id Item.needs (structs (d.received++[u])) (d.doc.store++u.items) d.doc.waiting
    rw [structs_concat]
    refine hfollows.items.extend (transaction_causal ht h hblank) (transaction_distinct ht)
      (fun x hx => ?_) (fun x hx i hi => ?_)
    · exact not_emitted ht h (hreceived (stored_of_mem hx))
    · exact not_emitted ht h (need_emitted hclosed (structs_subset h.received hx) hi)
  · simp [BlockDoc.transact,hfollows.deletes i,or_and_right,exists_or]
  · have hclocks : n < d.clock ∨ n ∈ List.range' d.clock u.items.length := by
      rw [List.mem_range'_1]
      have hn' : n < d.clock+u.items.length := hn
      omega
    rcases hclocks with hold | hnew
    · exact stored_append.mpr (.inl (h.clocks hblank n hold))
    · refine stored_append.mpr (.inr ?_)
      rw [Stored,ht.clocks]
      exact List.mem_map.mpr ⟨n,hnew,rfl⟩

/-- What the document has is emitted, so the update rests on emitted structs. -/
theorem transaction_restsOn (ht : Transaction d u) (h : Opened emitted d)
    (hblank : Blank d.initial) : RestsOn emitted u := by
  have hstore : ∀ i, Stored Item.id d.doc.store i → Stored Item.id (structs emitted) i := by
    intro i hi
    obtain ⟨x,hx,rfl⟩ := List.mem_map.mp hi
    have hcame := ((h.follows hblank).items.known x).mpr (.inl hx)
    exact stored_structs_subset h.received (stored_of_mem hcame)
  refine ⟨(transaction_causal ht h hblank).mono hstore,fun i hi => ?_⟩
  rcases stored_append.mp (ht.deletes i hi) with hold | hnew
  · exact stored_append.mpr (.inl (hstore i hold))
  · exact stored_append.mpr (.inr hnew)

theorem one_concat (ht : Transaction d u) (h : Opened emitted d) (hone : One emitted) :
    One (emitted++[u]) := by
  have hnew : ∀ x ∈ structs emitted, ∀ y ∈ u.items, x.id ≠ y.id := fun x hx y hy heq =>
    not_emitted ht h (stored_of_mem hx) (heq ▸ stored_of_mem hy)
  intro x hx y hy heq
  have hx : x ∈ structs (emitted++[u]) := hx
  have hy : y ∈ structs (emitted++[u]) := hy
  rw [structs_concat] at hx hy
  rcases List.mem_append.mp hx with hx | hx <;> rcases List.mem_append.mp hy with hy | hy
  · exact hone hx hy heq
  · exact absurd heq (hnew x hx y hy)
  · exact absurd heq.symm (hnew y hy x hx)
  · exact List.inj_on_of_nodup_map (transaction_distinct ht) hx hy heq

end Opened

/-! ## All clients -/

section World
variable {yjs : Yjs} {emitted : List (Update yjs.Content)} {u : Update yjs.Content}
  {w next : World yjs.Content}

structure Kept (emitted : List (Update yjs.Content)) (r : Registry yjs.Content) : Prop where
  buffer : ∀ b ∈ r.buffer, ∃ u ∈ emitted, readDelta yjs b.deltaB64 = some u
  entry : ∀ d, r.entry = some d → Opened emitted d

def Hydrates (us : List (Update yjs.Content)) (state : Option Bytes) : Prop :=
  ∃ r, makeDoc (pycrdt yjs) state = some r ∧ Follows us r

structure Sound (w : World yjs.Content) : Prop where
  closed : Closed [] w.emitted
  one : One w.emitted
  issued : ∀ x ∈ structs w.emitted, x.id.client ∈ w.clients
  clients : ∀ k c, (w.registries k).client = some c → c ∈ w.clients
  apart : ∀ k l c, (w.registries k).client = some c → (w.registries l).client = some c → k = l
  kept : ∀ k, Kept w.emitted (w.registries k)
  consumed : ∀ u ∈ w.consumed, u ∈ w.emitted
  state : Hydrates w.consumed w.state

theorem start_sound : Sound (.start yjs.Content) where
  closed := trivial
  one _ hx := absurd hx List.not_mem_nil
  issued _ hx := absurd hx List.not_mem_nil
  clients _ _ h := by cases h
  apart _ _ _ h := by cases h
  kept _ := ⟨fun _ hb => absurd hb List.not_mem_nil,fun _ h => by cases h⟩
  consumed _ hu := absurd hu List.not_mem_nil
  state := ⟨{},rfl,follows_nil⟩

theorem kept_empty : Kept emitted ({} : Registry yjs.Content) where
  buffer _ hb := absurd hb List.not_mem_nil
  entry _ h := by cases h

theorem kept_receive {r : Registry yjs.Content} {deltaB64 : String} (now : ℕ)
    (h : Kept emitted r) (hone : One emitted) (hu : u ∈ emitted)
    (hread : readDelta yjs deltaB64 = some u) (hblank : ∀ d, r.entry = some d → Blank d.initial) :
    Kept emitted (r.applyRemoteDelta yjs now deltaB64) ∧
      ∀ d, (r.applyRemoteDelta yjs now deltaB64).entry = some d → Blank d.initial := by
  obtain ⟨_ | d,buffer⟩ := r
  · refine ⟨⟨fun b hb => ?_,fun _ hd => by cases hd⟩,fun _ hd => by cases hd⟩
    rcases List.mem_append.mp hb with hb | hb
    · exact h.buffer b hb
    · exact ⟨u,hu,List.mem_singleton.mp hb ▸ hread⟩
  · simp only [Registry.applyRemoteDelta,hread]
    have hd : Blank d.initial := hblank d rfl
    refine ⟨⟨h.buffer,fun e he => ?_⟩,fun e he => ?_⟩
    · cases he
      exact (h.entry d rfl).applyUpdate hone hu hd
    · cases he
      exact hd

theorem kept_flush {buffer : List BufferedDelta} {r : Registry yjs.Content} {now : ℕ}
    (h : Kept emitted r) (hone : One emitted)
    (hbuffer : ∀ b ∈ buffer, ∃ u ∈ emitted, readDelta yjs b.deltaB64 = some u)
    (hblank : flushes now buffer → ∀ d, r.entry = some d → Blank d.initial) :
    Kept emitted (Registry.flush yjs now r buffer) := by
  induction buffer generalizing r with
  | nil => exact h
  | cons b buffer ih =>
    have hrest : ∀ c ∈ buffer, ∃ u ∈ emitted, readDelta yjs c.deltaB64 = some u :=
      fun c hc => hbuffer c (List.mem_cons_of_mem _ hc)
    show Kept emitted (Registry.flush yjs now
      (if b.expired now then r else r.applyRemoteDelta yjs now b.deltaB64) buffer)
    by_cases hb : b.expired now
    · rw [if_pos hb]
      refine ih h hrest (fun hflush => hblank ?_)
      obtain ⟨c,hc,hlive⟩ := hflush
      exact ⟨c,List.mem_cons_of_mem _ hc,hlive⟩
    · rw [if_neg hb]
      obtain ⟨u,hu,hread⟩ := hbuffer b List.mem_cons_self
      have hall := hblank ⟨b,List.mem_cons_self,hb⟩
      obtain ⟨hkept,hstill⟩ := kept_receive now h hone hu hread hall
      exact ih hkept hrest (fun _ => hstill)

theorem kept_ensure {r : Registry yjs.Content} {client : ℕ} (now : ℕ)
    {initial : List InlineNode} (h : Kept emitted r) (hone : One emitted)
    (hfresh : ∀ x ∈ structs emitted, x.id.client ≠ client)
    (hblank : r.entry = none → flushes now r.buffer → Blank initial) :
    Kept emitted (r.ensure yjs now client initial) := by
  obtain ⟨_ | d,buffer⟩ := r
  · have hseeded : Kept emitted ⟨some (.seeded yjs client initial),buffer⟩ := by
      refine ⟨h.buffer,fun d hd => ?_⟩
      cases hd
      exact seeded_opened hfresh initial
    have hflushed := @kept_flush yjs emitted buffer _ now hseeded hone h.buffer (fun hflush d hd => by
      cases hd
      exact hblank rfl hflush)
    exact ⟨fun b hb => absurd hb List.not_mem_nil,hflushed.entry⟩
  · exact h

theorem set_self (w : World yjs.Content) (k : ℕ) (r : Registry yjs.Content) :
    (w.set k r).registries k = r := Function.update_self ..

theorem set_other (w : World yjs.Content) {k l : ℕ} (r : Registry yjs.Content) (h : l ≠ k) :
    (w.set k r).registries l = w.registries l := Function.update_of_ne h ..

/-- One registry changes, and nothing is emitted. -/
theorem sound_set {k : ℕ} {r : Registry yjs.Content} {ids : List ℕ} (h : Sound w)
    (hr : Kept w.emitted r) (hsub : ∀ c ∈ w.clients, c ∈ ids)
    (hclient : ∀ c, r.client = some c →
      (w.registries k).client = some c ∨ c ∈ ids ∧ c ∉ w.clients) :
    Sound { w.set k r with clients := ids } := by
  have hother : ∀ l c, l ≠ k → r.client = some c → (w.registries l).client ≠ some c := by
    intro l c hl hc hlc
    rcases hclient c hc with hold | ⟨-,hnew⟩
    · exact hl (h.apart l k c hlc hold)
    · exact hnew (h.clients l c hlc)
  refine ⟨h.closed,h.one,fun x hx => hsub _ (h.issued x hx),fun l c hc => ?_,
    fun l m c hl hm => ?_,fun l => ?_,h.consumed,h.state⟩
  · have hc : ((w.set k r).registries l).client = some c := hc
    by_cases hl : l = k
    · rw [hl,set_self] at hc
      rcases hclient c hc with hold | ⟨hnew,-⟩
      · exact hsub c (h.clients k c hold)
      · exact hnew
    · rw [set_other w r hl] at hc
      exact hsub c (h.clients l c hc)
  · have hl : ((w.set k r).registries l).client = some c := hl
    have hm : ((w.set k r).registries m).client = some c := hm
    by_cases hlk : l = k <;> by_cases hmk : m = k
    · rw [hlk,hmk]
    · rw [hlk,set_self] at hl
      rw [set_other w r hmk] at hm
      exact absurd hm (hother m c hmk hl)
    · rw [hmk,set_self] at hm
      rw [set_other w r hlk] at hl
      exact absurd hl (hother l c hlk hm)
    · rw [set_other w r hlk] at hl
      rw [set_other w r hmk] at hm
      exact h.apart l m c hl hm
  · show Kept w.emitted ((w.set k r).registries l)
    by_cases hl : l = k
    · rw [hl,set_self]
      exact hr
    · rw [set_other w r hl]
      exact h.kept l

theorem sound_edit {k : ℕ} {d : BlockDoc yjs.Content} (h : Sound w)
    (hd : (w.registries k).entry = some d) (ht : Transaction d u) (hblank : Blank d.initial) :
    Sound { w.set k { w.registries k with entry := some (d.transact u) } with
      emitted := w.emitted++[u] } := by
  have hopened : Opened w.emitted d := (h.kept k).entry d hd
  have hk : (w.registries k).client = some d.client := client_of_entry hd
  have hclient : ∀ l, ((w.set k { w.registries k with
      entry := some (d.transact u) }).registries l).client = (w.registries l).client := by
    intro l
    by_cases hl : l = k
    · rw [hl,set_self,hk]
      rfl
    · rw [set_other w _ hl]
  refine ⟨?_,one_concat ht hopened h.one,fun x hx => ?_,fun l c hc => ?_,fun l m c hl hm => ?_,
    fun l => ?_,fun v hv => List.mem_append_left _ (h.consumed v hv),h.state⟩
  · exact closed_concat.mpr ⟨h.closed,transaction_restsOn ht hopened hblank⟩
  · show x.id.client ∈ w.clients
    have hx : x ∈ structs (w.emitted++[u]) := hx
    rw [structs_concat] at hx
    rcases List.mem_append.mp hx with hx | hx
    · exact h.issued x hx
    · rw [(transaction_id ht hx).1]
      exact h.clients k _ hk
  · exact h.clients l c ((hclient l).symm.trans hc)
  · exact h.apart l m c ((hclient l).symm.trans hl) ((hclient m).symm.trans hm)
  · show Kept (w.emitted++[u]) ((w.set k { w.registries k with
      entry := some (d.transact u) }).registries l)
    have hbuffer : ∀ b ∈ (w.registries l).buffer, ∃ v ∈ w.emitted++[u],
        readDelta yjs b.deltaB64 = some v := by
      intro b hb
      obtain ⟨v,hv,hread⟩ := (h.kept l).buffer b hb
      exact ⟨v,List.mem_append_left _ hv,hread⟩
    by_cases hl : l = k
    · subst hl
      rw [set_self]
      refine ⟨hbuffer,fun e he => ?_⟩
      cases he
      exact opened_transact ht hopened h.closed hblank
    · rw [set_other w _ hl]
      refine ⟨hbuffer,fun e he => ((h.kept l).entry e he).others_emit (fun x hx heq => hl ?_)⟩
      have hle : (w.registries l).client = some e.client := client_of_entry he
      rw [(transaction_id ht hx).1] at heq
      exact h.apart l k e.client hle (heq ▸ hk)

theorem hydrates_consume {us : List (Update yjs.Content)} {state : Option Bytes}
    (h : Hydrates us state) (hone : One (us++[u])) : ∃ next content,
    Crdt.integrate (pycrdt yjs) state (yjs.encode u) = some (next,content) ∧
      Hydrates (us++[u]) (some next) := by
  obtain ⟨r,hmake,hfollows⟩ := h
  have hnext := hfollows.applyUpdate hone
  refine ⟨yjs.encode (r.applyUpdate yjs u).update,
    extractContent (pycrdt yjs) (r.applyUpdate yjs u),?_,
    ({} : Replica yjs.Content).applyUpdate yjs (r.applyUpdate yjs u).update,
    ?_,hnext.rehydrate hone⟩
  · have happly : (pycrdt yjs).applyUpdate r (yjs.encode u) = some (r.applyUpdate yjs u) := by
      simp [pycrdt,yjs.decode_encode]
    rw [Crdt.integrate,hmake,Option.bind_eq_bind,Option.bind_some,happly]
    rfl
  · rw [makeDoc,if_neg (yjs.encode_ne_nil _)]
    simp [pycrdt,yjs.decode_encode]

theorem step_sound {a : Action yjs.Content} (h : Sound w) (hs : step yjs w a = some next)
    (hc : Unseeded w a) : Sound next := by
  cases a with
  | ensure k now client initial =>
    simp only [step] at hs
    split at hs
    · cases hs
    · next hfresh =>
      cases hs
      have hids : ∀ x ∈ structs w.emitted, x.id.client ≠ client := fun x hx heq =>
        hfresh (heq ▸ h.issued x hx)
      refine sound_set h (kept_ensure now (h.kept k) h.one hids hc)
        (fun c hc => List.mem_append_left _ hc) (fun c hclient => ?_)
      rw [Registry.client,ensure_opened] at hclient
      cases hold : (w.registries k).opened with
      | none =>
        rw [hold] at hclient
        cases hclient
        exact .inr ⟨List.mem_append_right _ (List.mem_singleton.mpr rfl),hfresh⟩
      | some o =>
        rw [hold] at hclient
        exact .inl (by rw [Registry.client,hold]; exact hclient)
  | edit k u =>
    simp only [step] at hs
    split at hs
    · cases hs
    · next d hd =>
      split at hs
      · next ht =>
        cases hs
        exact sound_edit h hd ht (hc d hd)
      · cases hs
  | receive k now i =>
    simp only [step] at hs
    split at hs
    · cases hs
    · next u hu =>
      obtain ⟨deltaB64,hdelta,rfl⟩ := Option.map_eq_some_iff.mp hs
      have hkept := (kept_receive now (h.kept k) h.one (List.mem_of_getElem? hu)
        (readDelta_sent yjs hdelta) hc).1
      refine sound_set h hkept (fun c hc => hc) (fun c hclient => .inl ?_)
      rw [← hclient,Registry.client,Registry.client,applyRemoteDelta_opened]
  | destroy k =>
    cases hs
    exact sound_set h kept_empty (fun c hc => hc) (fun c hclient => by cases hclient)
  | clear k =>
    cases hs
    exact sound_set h kept_empty (fun c hc => hc) (fun c hclient => by cases hclient)
  | consume i =>
    simp only [step] at hs
    split at hs
    · cases hs
    · next u hu =>
      have hconsumed : ∀ v ∈ w.consumed++[u], v ∈ w.emitted := by
        intro v hv
        rcases List.mem_append.mp hv with hv | hv
        · exact h.consumed v hv
        · exact List.mem_singleton.mp hv ▸ List.mem_of_getElem? hu
      obtain ⟨state,content,hint,hstate⟩ := hydrates_consume h.state (h.one.of_subset hconsumed)
      rw [hint] at hs
      cases hs
      exact { h with consumed := hconsumed, state := hstate }

theorem consistent_of_sound (h : Sound w) : Consistent yjs w := by
  obtain ⟨r,hmake,hfollows⟩ := h.state
  have honly : ∀ s, makeDoc (pycrdt yjs) w.state = some s → s = r := fun s hs =>
    Option.some.inj (hs.symm.trans hmake)
  refine ⟨h.closed,fun k d hd => ?_,fun s hs => ?_,fun k l d e hd he hinitial hsame => ?_,
    fun k d s hd hblank hs hsame => ?_⟩
  · have hopened := (h.kept k).entry d hd
    by_cases hblank : Blank d.initial
    · exact (hopened.follows hblank).takesIn h.closed
    · rintro before u after - - hu
      rw [hopened.frozen hblank] at hu
      exact absurd hu List.not_mem_nil
  · exact honly s hs ▸ hfollows.takesIn h.closed
  · have hopened := (h.kept k).entry d hd
    have hopened' := (h.kept l).entry e he
    by_cases hblank : Blank d.initial
    · exact (hopened.follows hblank).text_eq (hopened'.follows (hinitial ▸ hblank))
        (h.one.of_subset hopened.received) hsame
    · rw [hopened.frozen hblank,hopened'.frozen (hinitial ▸ hblank),← hinitial,
        seeded_store hblank,seeded_store hblank]
      exact yjs.seed_text _ _ _
  · have hopened := (h.kept k).entry d hd
    exact (hopened.follows hblank).text_eq (honly s hs ▸ hfollows)
      (h.one.of_subset hopened.received) hsame

/-- The first transaction on a seeded document needs a seeded struct or deletes one. -/
theorem seeded_not_restsOn {d : BlockDoc yjs.Content} (h : Opened emitted d)
    (hseeded : ¬ Blank d.initial) (ht : Transaction d u) : ¬ RestsOn emitted u := by
  intro hrests
  have hfrozen := h.frozen hseeded
  rw [seeded_store hseeded] at hfrozen
  have hunsent : ∀ n, ¬ Stored Item.id (structs emitted) ⟨d.client,n⟩ := by
    intro n hn
    obtain ⟨x,hx,hid⟩ := List.mem_map.mp hn
    have hown := (h.own x hx (congrArg StructId.client hid)).1
    rw [hfrozen] at hown
    exact absurd hown List.not_mem_nil
  cases hitems : u.items with
  | cons x items =>
    have hx : x ∈ u.items := hitems ▸ List.mem_cons_self
    obtain ⟨hclient,hlow,-⟩ := transaction_id ht hx
    have hpos : 0 < d.clock := by
      rw [hfrozen]
      exact List.length_pos_iff.mpr (fun hnil => hseeded ((seed_nil_iff yjs _ _).mp hnil))
    have hneed : (⟨d.client,0⟩ : StructId) ∈ x.needs := by
      refine List.mem_append_left _ (List.mem_map.mpr ⟨0,List.mem_range.mpr (by omega),?_⟩)
      rw [hclient]
    have hitem := hrests.items
    rw [hitems] at hitem
    exact hunsent 0 (hitem.1 _ hneed)
  | nil =>
    obtain ⟨i,hi⟩ := List.exists_mem_of_ne_nil _ (ht.changes.resolve_left (fun h => h hitems))
    have hstore := ht.deletes i hi
    have hsent := hrests.deletes i hi
    rw [hitems,List.append_nil] at hstore hsent
    rw [hfrozen,Stored,yjs.seed_ids] at hstore
    obtain ⟨n,-,rfl⟩ := List.mem_map.mp hstore
    exact hunsent n hsent

/-- An edit keeps the updates closed exactly if its document was opened with
nothing to show. -/
theorem closed_iff_blank {k : ℕ} {d : BlockDoc yjs.Content} (h : Sound w)
    (hd : (w.registries k).entry = some d) (hs : step yjs w (.edit k u) = some next) :
    Closed [] next.emitted ↔ Blank d.initial := by
  constructor
  · intro hclosed
    by_contra hseeded
    simp only [step,hd] at hs
    split at hs
    · next ht =>
      cases hs
      exact seeded_not_restsOn ((h.kept k).entry d hd) hseeded ht (closed_concat.mp hclosed).2
    · cases hs
  · intro hblank
    refine (step_sound h hs (fun e he => ?_)).closed
    exact Option.some.inj (hd.symm.trans he) ▸ hblank

/-! ## Blocks that open with nothing to show -/

def opens : Action C → List InlineNode
  | .ensure _ _ _ initial => initial
  | _ => []

def AllBlank (w : World C) : Prop := ∀ k o, (w.registries k).opened = some o → Blank o.2

theorem set_allBlank {k : ℕ} {r : Registry yjs.Content} (h : AllBlank w)
    (hr : ∀ o, r.opened = some o → Blank o.2) : AllBlank (w.set k r) := by
  intro l o ho
  by_cases hl : l = k
  · rw [hl,set_self] at ho
    exact hr o ho
  · rw [set_other w r hl] at ho
    exact h l o ho

theorem step_allBlank {a : Action yjs.Content} (h : AllBlank w) (hs : step yjs w a = some next)
    (ha : Blank (opens a)) : AllBlank next := by
  cases a with
  | ensure k now client initial =>
    simp only [step] at hs
    split at hs
    · cases hs
    · cases hs
      refine set_allBlank h (fun o ho => ?_)
      rw [ensure_opened] at ho
      cases hold : (w.registries k).opened with
      | none =>
        rw [hold] at ho
        cases ho
        exact ha
      | some p =>
        rw [hold] at ho
        exact h k o (hold.trans ho)
  | edit k u =>
    simp only [step] at hs
    split at hs
    · cases hs
    · next d hd =>
      split at hs
      · cases hs
        refine set_allBlank h (fun o ho => h k o ?_)
        rw [Registry.opened,hd]
        exact ho
      · cases hs
  | receive k now i =>
    simp only [step] at hs
    split at hs
    · cases hs
    · obtain ⟨deltaB64,-,rfl⟩ := Option.map_eq_some_iff.mp hs
      refine set_allBlank h (fun o ho => h k o ?_)
      rw [applyRemoteDelta_opened] at ho
      exact ho
  | destroy k =>
    cases hs
    exact set_allBlank h (fun o ho => by cases ho)
  | clear k =>
    cases hs
    exact set_allBlank h (fun o ho => by cases ho)
  | consume i =>
    simp only [step] at hs
    split at hs
    · cases hs
    · split at hs
      · cases hs
      · cases hs
        exact h

theorem allBlank_unseeded {a : Action yjs.Content} (h : AllBlank w) (ha : Blank (opens a)) :
    Unseeded w a := by
  have hentry : ∀ k d, (w.registries k).entry = some d → Blank d.initial := by
    intro k d hd
    refine h k (d.client,d.initial) ?_
    rw [Registry.opened,hd]
    rfl
  cases a with
  | ensure k now client initial => exact fun _ _ => ha
  | edit k u => exact hentry k
  | receive k now i => exact hentry k
  | destroy k => trivial
  | clear k => trivial
  | consume i => trivial

theorem blank_along {run : List (Action yjs.Content)} (hrun : ∀ a ∈ run, Blank (opens a))
    (hw : AllBlank w) : Along (step yjs) Unseeded w run := by
  induction run generalizing w with
  | nil => trivial
  | cons a run ih =>
    intro next hs
    have ha := hrun a List.mem_cons_self
    exact ⟨allBlank_unseeded hw ha,
      ih (fun b hb => hrun b (List.mem_cons_of_mem _ hb)) (step_allBlank hw hs ha)⟩

/-- The updates are closed, and what the replicas show agrees, in every run in
which a document that was opened with something to show neither edits nor takes
an update in. -/
theorem consistent_if_unseeded (yjs : Yjs) {run : List (Action yjs.Content)}
    (h : Along (step yjs) Unseeded (.start yjs.Content) run) :
    Throughout (step yjs) (Consistent yjs) (.start yjs.Content) run :=
  throughout_mono (fun _ hw => consistent_of_sound hw)
    (throughout_of_along (fun _ _ _ hw hs hc => step_sound hw hs hc) start_sound h)

/-! ## Two clients -/

def typedAt (client clock : ℕ) (origins : List StructId) (c : Char) : Update Char where
  items := [⟨⟨client,clock⟩,origins,c⟩]
  deletes := []

/-- The second letter comes first at the peer, which then adds one of its own. -/
def emptyBlock : List (Action Char) :=
  [.ensure 0 0 1 [],.ensure 1 0 2 [.text "" []],.edit 0 (typedAt 1 0 [] 'H'),
    .edit 0 (typedAt 1 1 [⟨1,0⟩] 'i'),.receive 1 0 1,.receive 1 0 0,.consume 0,
    .edit 1 (typedAt 2 0 [⟨1,1⟩] '!'),.consume 2,.consume 1]

theorem consistent_if_unseeded_empty_block :
    ((exec (step plain) (.start Char) emptyBlock).bind fun w =>
      (makeDoc (pycrdt plain) w.state).map fun r : Replica Char => shown r.store r.deletes) =
        some "Hi!".toList ∧
    Throughout (step plain) (Consistent plain) (.start Char) emptyBlock := by
  constructor
  · decide +kernel
  · have hblank : ∀ a ∈ emptyBlock, Blank (opens a) := by
      simp [emptyBlock,opens,Blank,InlineNode.isBlank]
    apply consistent_if_unseeded
    exact blank_along hblank (fun k o ho => (by cases ho))

/-- Both open a block that shows two letters, and one of them adds a mark. -/
def greeting : List InlineNode := [.text "Hi" []]

def mark : Update Char := typedAt 1 2 [⟨1,1⟩] '!'

def seededBlock : List (Action Char) :=
  [.ensure 0 0 1 greeting,.ensure 1 0 2 greeting,.edit 0 mark,.receive 1 0 0,.consume 0]

def view (w : World Char) (k : ℕ) : Option (List (Update Char) × List Char × List (Item Char)) :=
  (w.registries k).entry.map fun d =>
    (d.received,shown d.doc.store d.doc.deletes,d.doc.waiting)

def consumerView (w : World Char) : Option (List Char × List (Item Char)) :=
  (makeDoc (pycrdt plain) w.state).map fun r : Replica Char =>
    (shown r.store r.deletes,r.waiting)

/-- All have the one update that was emitted, and only its author can show it. -/
theorem typed_mark_stays_pending : ∃ w, exec (step plain) (.start Char) seededBlock = some w ∧
    w.emitted = [mark] ∧ w.consumed = [mark] ∧
    view w 0 = some ([mark],"Hi!".toList,[]) ∧ view w 1 = some ([mark],"Hi".toList,mark.items) ∧
    consumerView w = some ([],mark.items) ∧ ¬ Consistent plain w := by
  have hrun : (exec (step plain) (.start Char) seededBlock).any (fun w =>
      w.emitted = [mark] ∧ w.consumed = [mark] ∧
      view w 0 = some ([mark],"Hi!".toList,[]) ∧ view w 1 = some ([mark],"Hi".toList,mark.items) ∧
      consumerView w = some ([],mark.items)) = true := by
    decide +kernel
  obtain ⟨w,hw,hfacts⟩ := (Option.any_eq_true _ _).mp hrun
  obtain ⟨hemitted,hconsumed,hauthor,hpeer,hrow⟩ := of_decide_eq_true hfacts
  refine ⟨w,hw,hemitted,hconsumed,hauthor,hpeer,hrow,fun hconsistent => ?_⟩
  -- the first letter was never emitted
  have hneed : (⟨1,0⟩ : StructId) ∈ Item.needs (⟨⟨1,2⟩,[⟨1,1⟩],'!'⟩ : Item Char) := by decide
  have hclosed := hconsistent.closed
  rw [hemitted] at hclosed
  exact absurd (hclosed.1.items.1 _ hneed) List.not_mem_nil

end World

end BlockDocs.CausalClosure
