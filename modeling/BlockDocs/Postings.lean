import BlockDocs.Requests

/-!
# Postings and their batches

Every posting of a committed batch carries the number and the operations of
its batch, wherever it is: with its request, in the stream or on the bus. No
batch is posted twice.
-/

set_option autoImplicit false

namespace BlockDocs.Postings
open BlockDocs.Wire BlockDocs.DocBlocks BlockDocs.ApplyOps BlockDocs.PostOperations
open BlockDocs.Statements BlockDocs.WriteChain BlockDocs.Transactions BlockDocs.Requests

/-! ## The transactions below -/

theorem statement_history {w next : Transactions.World} {s : SessionId} {r : Running} {t : Table}
    {sc : Script} (h : w.statement s r t sc = some next) : next.history = w.history := by
  cases statement_executes h <;> rfl

/-- Only a commit adds to the history, and a failed transaction adds nothing. -/
theorem tx_history {w next : Transactions.World} {a : Transactions.Action}
    (h : Transactions.step w a = some next) (ha : ∀ s, a ≠ .commit s) :
    next.history = w.history := by
  cases a with
  | call s docId userId op =>
    simp only [Transactions.step] at h
    split at h
    · cases h; rfl
    · cases h
  | execute s =>
    simp only [Transactions.step] at h
    split at h
    · exact statement_history h
    · cases h
  | miss s =>
    simp only [Transactions.step] at h
    split at h
    · split at h
      · unfold World.missed at h
        split at h
        · cases h; rfl
        · cases h; rfl
        · cases h
      · cases h
    · cases h
  | commit s => exact absurd rfl (ha s)
  | rollback s => cases h; rfl

theorem commit_history {w next : Transactions.World} {s : SessionId}
    (h : Transactions.step w (.commit s) = some next) :
    next.history = w.history++(if (w.sessions s).failed then [] else (w.sessions s).finished) := by
  simp only [Transactions.step,World.commit] at h
  split at h
  · split at h
    · next hfailed =>
      cases h
      rw [if_pos hfailed,List.append_nil]
      rfl
    · next hsound =>
      unfold Transactions.World.committed at h
      split at h
      · cases h
      · cases h
        rw [if_neg hsound]
  · cases h

/-! ## Postings and their batches -/

def Numbered (w : Requests.World) (p : Posting) : Prop :=
  ∀ i ∈ p.batch, ∃ fs, w.batches[i]? = some fs ∧ p.wireOps = wireOps fs

structure Kept (w : Requests.World) : Prop where
  history : w.batches.flatten = w.tx.history
  waiting : ∀ u p, (w.requests u).posting = some p → Numbered w p
  streamed : ∀ p ∈ w.streamed, Numbered w p
  published : ∀ p ∈ w.published, Numbered w p
  apart : ∀ u v p q i, u ≠ v → (w.requests u).posting = some p →
    (w.requests v).posting = some q → p.batch = some i → q.batch ≠ some i
  unadded : ∀ u p i, (w.requests u).toAdd = some p → p.batch = some i →
    ∀ q ∈ w.streamed, q.batch ≠ some i
  unpublished : ∀ u p i, (w.requests u).posting = some p → p.batch = some i →
    ∀ q ∈ w.published, q.batch ≠ some i

theorem start_kept (db : Database) : Kept (.start db) where
  history := rfl
  waiting _ _ hp := by cases hp
  streamed _ hp := absurd hp List.not_mem_nil
  published _ hp := absurd hp List.not_mem_nil
  apart _ _ _ _ _ _ hp := by cases hp
  unadded _ _ _ hp := by cases hp
  unpublished _ _ _ hp := by cases hp

theorem posting_of_toAdd {r : Request} {p : Posting} (h : r.toAdd = some p) :
    r.posting = some p := by
  cases r with
  | adding q => exact h
  | idle => cases h
  | applying userId ops => cases h
  | recording q id => cases h
  | publishing q id => cases h

/-- The request of `s` becomes `r`: it goes on with its posting, to the stream,
to the bus or to its end, and no batch is committed. -/
structure Moved (w w' : Requests.World) (s : SessionId) (r : Request) : Prop where
  requests : w'.requests = (w.set s r).requests
  batches : w'.batches = w.batches
  tx : w'.tx = w.tx ∨
    ∃ b, (∀ u, b ≠ .commit u) ∧ Transactions.step w.tx b = some w'.tx
  posting : ∀ p, r.posting = some p → (w.requests s).posting = some p
  toAdd : ∀ p, r.toAdd = some p → (w.requests s).toAdd = some p
  streamed : w'.streamed = w.streamed ∨
    ∃ p, (w.requests s).toAdd = some p ∧ r.toAdd = none ∧ w'.streamed = w.streamed++[p]
  published : w'.published = w.published ∨
    ∃ p, (w.requests s).posting = some p ∧ r.posting = none ∧ w'.published = w.published++[p]

theorem moved_history {w w' : Requests.World} {s : SessionId} {r : Request}
    (h : Moved w w' s r) : w'.tx.history = w.tx.history := by
  rcases h.tx with hsame | ⟨b,hb,hstep⟩
  · rw [hsame]
  · exact tx_history hstep hb

theorem moved_self {w w' : Requests.World} {s : SessionId} {r : Request} (h : Moved w w' s r) :
    w'.requests s = r := by rw [h.requests,Requests.set_self]

theorem moved_posting {w w' : Requests.World} {s : SessionId} {r : Request} (h : Moved w w' s r)
    {u : SessionId} {p : Posting} (hp : (w'.requests u).posting = some p) :
    (w.requests u).posting = some p := by
  by_cases hu : u = s
  · subst hu
    exact h.posting p (moved_self h ▸ hp)
  · rwa [h.requests,Requests.set_other w r hu] at hp

theorem moved_toAdd {w w' : Requests.World} {s : SessionId} {r : Request} (h : Moved w w' s r)
    {u : SessionId} {p : Posting} (hp : (w'.requests u).toAdd = some p) :
    (w.requests u).toAdd = some p := by
  by_cases hu : u = s
  · subst hu
    exact h.toAdd p (moved_self h ▸ hp)
  · rwa [h.requests,Requests.set_other w r hu] at hp

theorem mem_grown {ps ps' : List Posting} {A : Posting → Prop} {B : Prop}
    (h : ps' = ps ∨ ∃ p, A p ∧ B ∧ ps' = ps++[p]) {p : Posting} (hp : p ∈ ps') :
    p ∈ ps ∨ A p ∧ B := by
  rcases h with rfl | ⟨q,hq,hB,rfl⟩
  · exact Or.inl hp
  · rcases List.mem_append.mp hp with hp | hp
    · exact Or.inl hp
    · cases List.mem_singleton.mp hp
      exact Or.inr ⟨hq,hB⟩

theorem pairwise_grown {ps ps' : List Posting} {A : Posting → Prop} {B : Prop}
    {R : Posting → Posting → Prop} (h : ps' = ps ∨ ∃ p, A p ∧ B ∧ ps' = ps++[p])
    (hps : ps.Pairwise R) (hnew : ∀ p, A p → ∀ q ∈ ps, R q p) : ps'.Pairwise R := by
  rcases h with rfl | ⟨p,hp,-,rfl⟩
  · exact hps
  · refine List.pairwise_append.mpr ⟨hps,List.pairwise_singleton _ _,?_⟩
    intro q hq o ho
    cases List.mem_singleton.mp ho
    exact hnew p hp q hq

theorem moved_kept {w w' : Requests.World} {s : SessionId} {r : Request} (hk : Kept w)
    (h : Moved w w' s r) : Kept w' := by
  have hnumbered : ∀ p, Numbered w p → Numbered w' p := by
    intro p hp i hi
    rw [h.batches]
    exact hp i hi
  constructor
  · rw [h.batches,moved_history h]
    exact hk.history
  · exact fun u p hp => hnumbered p (hk.waiting u p (moved_posting h hp))
  · intro p hp
    rcases mem_grown h.streamed hp with hp | ⟨hq,_⟩
    · exact hnumbered p (hk.streamed p hp)
    · exact hnumbered p (hk.waiting s p (posting_of_toAdd hq))
  · intro p hp
    rcases mem_grown h.published hp with hp | ⟨hq,_⟩
    · exact hnumbered p (hk.published p hp)
    · exact hnumbered p (hk.waiting s p hq)
  · intro u v p q i huv hp hq
    exact hk.apart u v p q i huv (moved_posting h hp) (moved_posting h hq)
  · intro u p i hp hi q hq
    have hold := moved_toAdd h hp
    rcases mem_grown h.streamed hq with hq | ⟨ho,hnone⟩
    · exact hk.unadded u p i hold hi q hq
    · have hu : u ≠ s := by
        rintro rfl
        cases hnone.symm.trans (moved_self h ▸ hp)
      exact hk.apart u s p q i hu (posting_of_toAdd hold) (posting_of_toAdd ho) hi
  · intro u p i hp hi q hq
    have hold := moved_posting h hp
    rcases mem_grown h.published hq with hq | ⟨ho,hnone⟩
    · exact hk.unpublished u p i hold hi q hq
    · have hu : u ≠ s := by
        rintro rfl
        cases hnone.symm.trans (moved_self h ▸ hp)
      exact hk.apart u s p q i hu hold ho hi

/-! ## Steps -/

/-- A request with nothing to send after the step. -/
theorem moved_quiet {w w' : Requests.World} {s : SessionId} {r : Request}
    (hr : w'.requests = (w.set s r).requests) (hposting : r.posting = none)
    (hbatches : w'.batches = w.batches)
    (htx : w'.tx = w.tx ∨ ∃ b, (∀ u, b ≠ .commit u) ∧ Transactions.step w.tx b = some w'.tx)
    (hstream : w'.stream = w.stream) (hbus : w'.bus = w.bus) : Moved w w' s r where
  requests := hr
  batches := hbatches
  tx := htx
  posting p hp := by cases hposting.symm.trans hp
  toAdd p hp := by cases hposting.symm.trans (posting_of_toAdd hp)
  streamed := Or.inl (congrArg (List.map Entry.posting) hstream)
  published := Or.inl (congrArg (List.map Publication.posting) hbus)

/-- A step of the request's transaction that is not its commit. -/
theorem moved_tx {w w' : Requests.World} {s : SessionId} {r : Request} {b : Transactions.Action}
    (hposting : r.posting = none) (hb : ∀ u, b ≠ .commit u)
    (h : (Transactions.step w.tx b).map (fun tx => { w.set s r with tx := tx }) = some w') :
    Moved w w' s r := by
  obtain ⟨tx,htx,rfl⟩ := Option.map_eq_some_iff.mp h
  exact moved_quiet rfl hposting rfl (Or.inr ⟨b,hb,htx⟩) rfl rfl

theorem set_same {w : Requests.World} {s : SessionId} {r : Request} (h : w.requests s = r) :
    w.requests = (w.set s r).requests := by
  funext u
  by_cases hu : u = s
  · rw [hu,Requests.set_self,h]
  · rw [Requests.set_other w _ hu]

/-- A step that commits nothing. -/
theorem step_moved {docId : DocId} {w w' : Requests.World} {a : Requests.Action}
    (h : Requests.step docId w a = some w') (ha : ∀ s, a ≠ .commit s) :
    ∃ r, Moved w w' a.session r := by
  cases a with
  | post s userId ops =>
    simp only [Requests.step] at h
    split at h
    · cases h
      exact ⟨_,moved_quiet rfl rfl rfl (Or.inl rfl) rfl rfl⟩
    · cases h
  | call s =>
    simp only [Requests.step] at h
    split at h
    · refine ⟨_,moved_tx rfl (fun u hu => ?_) h⟩
      cases hu
    · cases h
  | execute s =>
    simp only [Requests.step] at h
    split at h
    · refine ⟨_,moved_tx ?_ (fun u hu => ?_) h⟩
      · split <;> rfl
      · cases hu
    · cases h
  | miss s =>
    simp only [Requests.step] at h
    split at h
    · next userId ops hr =>
      obtain ⟨tx,htx,rfl⟩ := Option.map_eq_some_iff.mp h
      refine ⟨.applying userId ops,
        moved_quiet (set_same hr) rfl rfl (Or.inr ⟨_,fun u hu => ?_,htx⟩) rfl rfl⟩
      cases hu
    · cases h
  | abort s =>
    simp only [Requests.step] at h
    split at h
    · refine ⟨_,moved_tx rfl (fun u hu => ?_) h⟩
      cases hu
    · cases h
  | commit s => exact absurd rfl (ha s)
  | add s id =>
    simp only [Requests.step] at h
    split at h
    · next p hr =>
      split at h
      · cases h
        refine ⟨.recording p id,rfl,rfl,Or.inl rfl,fun q hq => hr ▸ hq,
          (fun q hq => by cases hq),Or.inr ⟨p,hr ▸ rfl,rfl,?_⟩,Or.inl rfl⟩
        simp [World.streamed]
      · cases h
    · cases h
  | addFails s =>
    simp only [Requests.step] at h
    split at h
    · next p hr =>
      cases h
      exact ⟨.publishing p none,rfl,rfl,Or.inl rfl,fun q hq => hr ▸ hq,
        (fun q hq => by cases hq),Or.inl rfl,Or.inl rfl⟩
    · cases h
  | record s recorded =>
    simp only [Requests.step] at h
    split at h
    · next p id hr =>
      cases h
      cases recorded with
      | false => exact ⟨.idle,moved_quiet rfl rfl rfl (Or.inl rfl) rfl rfl⟩
      | true =>
        exact ⟨.publishing p (some id),rfl,rfl,Or.inl rfl,fun q hq => hr ▸ hq,
          (fun q hq => by cases hq),Or.inl rfl,Or.inl rfl⟩
    · cases h
  | publish s =>
    simp only [Requests.step] at h
    split at h
    · next p id hr =>
      cases h
      refine ⟨.idle,rfl,rfl,Or.inl rfl,(fun q hq => by cases hq),(fun q hq => by cases hq),
        Or.inl rfl,Or.inr ⟨p,hr ▸ rfl,rfl,?_⟩⟩
      simp [World.published]
    · cases h
  | publishFails s =>
    simp only [Requests.step] at h
    split at h
    · cases h
      exact ⟨_,moved_quiet rfl rfl rfl (Or.inl rfl) rfl rfl⟩
    · cases h

theorem numbered_lt {w : Requests.World} {p : Posting} (h : Numbered w p) {i : ℕ}
    (hi : p.batch = some i) : i < w.batches.length := by
  obtain ⟨fs,hfs,-⟩ := h i hi
  exact (List.getElem?_eq_some_iff.mp hfs).1

structure Committed (w w' : Requests.World) (s : SessionId) (r : Request) : Prop where
  requests : w'.requests = (w.set s r).requests
  stream : w'.stream = w.stream
  bus : w'.bus = w.bus
  posting : ∀ p, r.posting = some p → p = w.posting s
  tx : Transactions.step w.tx (.commit s) = some w'.tx
  batches : w'.batches = w.batches++
    (if (w.tx.sessions s).failed then [] else [(w.tx.sessions s).finished])

theorem commit_committed {docId : DocId} {w w' : Requests.World} {s : SessionId}
    (h : Requests.step docId w (.commit s) = some w') : ∃ r, Committed w w' s r := by
  simp only [Requests.step] at h
  split at h
  · obtain ⟨tx,htx,rfl⟩ := Option.map_eq_some_iff.mp h
    refine ⟨_,rfl,rfl,rfl,?_,htx,?_⟩
    · intro p hp
      split at hp
      · cases hp
      · exact (Option.some.inj hp).symm
    · show (if (w.tx.sessions s).failed then w.batches
        else w.batches++[(w.tx.sessions s).finished]) = _
      split
      · rw [List.append_nil]
      · rfl
  · cases h

theorem committed_numbered {w w' : Requests.World} {s : SessionId} {r : Request}
    (h : Committed w w' s r) {p : Posting} (hp : Numbered w p) : Numbered w' p := by
  intro i hi
  obtain ⟨fs,hfs,hops⟩ := hp i hi
  refine ⟨fs,?_,hops⟩
  rw [h.batches,List.getElem?_append_left (List.getElem?_eq_some_iff.mp hfs).1]
  exact hfs

/-- The new posting has the number of its batch, which is the last one. -/
theorem posting_batch {w : Requests.World} {s : SessionId} {i : ℕ}
    (h : (w.posting s).batch = some i) :
    (w.tx.sessions s).failed = false ∧ i = w.batches.length := by
  unfold Requests.World.posting at h
  split at h
  · cases h
  · next hfailed => exact ⟨Bool.eq_false_iff.mpr hfailed,(Option.some.inj h).symm⟩

theorem committed_posting {w w' : Requests.World} {s : SessionId} {r : Request}
    (h : Committed w w' s r) {u : SessionId} {p : Posting}
    (hp : (w'.requests u).posting = some p) :
    (u = s ∧ p = w.posting s) ∨ (u ≠ s ∧ (w.requests u).posting = some p) := by
  rw [h.requests] at hp
  by_cases hu : u = s
  · rw [hu,Requests.set_self] at hp
    exact Or.inl ⟨hu,h.posting p hp⟩
  · rw [Requests.set_other w r hu] at hp
    exact Or.inr ⟨hu,hp⟩

theorem committed_kept {w w' : Requests.World} {s : SessionId} {r : Request} (hk : Kept w)
    (h : Committed w w' s r) : Kept w' := by
  have hstream : w'.streamed = w.streamed := congrArg (List.map Entry.posting) h.stream
  have hbus : w'.published = w.published := congrArg (List.map Publication.posting) h.bus
  have hnew : ∀ i, (w.posting s).batch = some i → ∀ q, Numbered w q → q.batch ≠ some i := by
    intro i hi q hq hqi
    have hlt := numbered_lt hq hqi
    have hlast := (posting_batch hi).2
    omega
  constructor
  · rw [h.batches,commit_history h.tx,List.flatten_append,hk.history]
    split <;> simp
  · intro u p hp
    rcases committed_posting h hp with ⟨-,rfl⟩ | ⟨-,hp⟩
    · intro i hi
      obtain ⟨hfailed,rfl⟩ := posting_batch hi
      refine ⟨(w.tx.sessions s).finished,?_,rfl⟩
      rw [h.batches,hfailed]
      simp
    · exact committed_numbered h (hk.waiting u p hp)
  · exact fun p hp => committed_numbered h (hk.streamed p (hstream ▸ hp))
  · exact fun p hp => committed_numbered h (hk.published p (hbus ▸ hp))
  · intro u v p q i huv hp hq hi
    rcases committed_posting h hp with ⟨hu,rfl⟩ | ⟨hu,hp⟩
    · rcases committed_posting h hq with ⟨hv,-⟩ | ⟨-,hq⟩
      · exact absurd (hu.trans hv.symm) huv
      · exact hnew i hi q (hk.waiting v q hq)
    · rcases committed_posting h hq with ⟨-,rfl⟩ | ⟨-,hq⟩
      · exact fun hqi => hnew i hqi p (hk.waiting u p hp) hi
      · exact hk.apart u v p q i huv hp hq hi
  · intro u p i hp hi q hq
    rcases committed_posting h (posting_of_toAdd hp) with ⟨-,rfl⟩ | ⟨hu,-⟩
    · exact hnew i hi q (hk.streamed q (hstream ▸ hq))
    · rw [h.requests,Requests.set_other w r hu] at hp
      exact hk.unadded u p i hp hi q (hstream ▸ hq)
  · intro u p i hp hi q hq
    rcases committed_posting h hp with ⟨-,rfl⟩ | ⟨-,hp⟩
    · exact hnew i hi q (hk.published q (hbus ▸ hq))
    · exact hk.unpublished u p i hp hi q (hbus ▸ hq)

theorem step_kept (docId : DocId) (w : Requests.World) (a : Requests.Action)
    (w' : Requests.World) (hk : Kept w) (h : Requests.step docId w a = some w') : Kept w' := by
  by_cases ha : ∃ s, a = .commit s
  · obtain ⟨s,rfl⟩ := ha
    obtain ⟨r,hr⟩ := commit_committed h
    exact committed_kept hk hr
  · obtain ⟨r,hr⟩ := step_moved h (fun s hs => ha ⟨s,hs⟩)
    exact moved_kept hk hr

theorem step_others {docId : DocId} {w w' : Requests.World} {a : Requests.Action}
    (h : Requests.step docId w a = some w') {u : SessionId} (hu : u ≠ a.session) :
    w'.requests u = w.requests u := by
  by_cases ha : ∃ s, a = .commit s
  · obtain ⟨s,rfl⟩ := ha
    obtain ⟨r,hr⟩ := commit_committed h
    rw [hr.requests]
    exact Requests.set_other w r hu
  · obtain ⟨r,hr⟩ := step_moved h (fun s hs => ha ⟨s,hs⟩)
    rw [hr.requests,Requests.set_other w r hu]

end BlockDocs.Postings
