import Mathlib.Logic.Function.Basic
import Mathlib.Tactic

/-!
# Replicas of a logged tree

A primary keeps nodes under keys and logs what it does to them: a node is put, moved or
dropped, and whatever hangs under a dropped node may go with it. A replica follows the log
from a copy of the primary. The copy may be ahead of the log, parts of the log may be read
again, and an edit may be made before it is read.
-/

set_option autoImplicit false

namespace BlockDocs.LogReplicas

structure Node (K P L : Type*) where
  parent : Option K
  place : P
  label : L

inductive Edit (K P L : Type*) where
  | put (k : K) (node : Node K P L)
  | move (k : K) (parent : Option K) (place : P)
  | drop (k : K)

abbrev Tree (K P L : Type*) := K → Option (Node K P L)

variable {K P L : Type*}

def Edit.key : Edit K P L → K
  | .put k _ => k
  | .move k _ _ => k
  | .drop k => k

def Node.moved (node : Node K P L) (parent : Option K) (place : P) : Node K P L :=
  { node with parent := parent, place := place }

@[simp] theorem label_moved (node : Node K P L) (parent : Option K) (place : P) :
    (node.moved parent place).label = node.label := rfl

variable [DecidableEq K]

def Node.orphaned (k : K) (parent : Option K) (node : Node K P L) : Node K P L :=
  if node.parent = some k then { node with parent := parent } else node

theorem orphaned_other {k : K} {node : Node K P L} (h : node.parent ≠ some k)
    (parent : Option K) : node.orphaned k parent = node := if_neg h

@[simp] theorem label_orphaned (k : K) (parent : Option K) (node : Node K P L) :
    (node.orphaned k parent).label = node.label := by
  unfold Node.orphaned
  split <;> rfl

/-! ## The primary -/

/-- What an edit may do on the primary. What is left after a drop was there before, and none
of it hangs under the dropped key. -/
def Logs (t : Tree K P L) (e : Edit K P L) (u : Tree K P L) : Prop :=
  match e with
  | .put k node => u = Function.update t k (some node)
  | .move k parent place => ∃ node, t k = some node ∧
      u = Function.update t k (some (node.moved parent place))
  | .drop k => u k = none ∧ ∀ j node, u j = some node → t j = some node ∧ node.parent ≠ some k

inductive History : Tree K P L → List (Edit K P L) → Tree K P L → Prop where
  | nil (t : Tree K P L) : History t [] t
  | cons {t u v : Tree K P L} {e : Edit K P L} {es : List (Edit K P L)} (h : Logs t e u)
      (hrest : History u es v) : History t (e::es) v

def Survives (k : K) (log : List (Edit K P L)) : Prop :=
  ∃ before node after, log = before++.put k node::after ∧ .drop k ∉ after

variable {t u v first last : Tree K P L} {e : Edit K P L} {es fs log rest : List (Edit K P L)}
variable {k : K} {node : Node K P L}

theorem history_append (h : History t es u) (hrest : History u fs v) : History t (es++fs) v := by
  induction h with
  | nil t => exact hrest
  | cons he _ ih => exact .cons he (ih hrest)

theorem history_split (h : History t (es++fs) v) : ∃ u, History t es u ∧ History u fs v := by
  induction es generalizing t with
  | nil => exact ⟨t,.nil t,h⟩
  | cons e es ih =>
    cases h with
    | cons he hrest =>
      obtain ⟨u,hfirst,hlast⟩ := ih hrest
      exact ⟨u,.cons he hfirst,hlast⟩

/-- An edit of another key leaves a node that is there afterwards as it was. -/
theorem logs_other (h : Logs t e u) (hkey : e.key ≠ k) (hu : u k = some node) :
    t k = some node ∧ ∀ p, e = .drop p → node.parent ≠ some p := by
  cases e with
  | put j n =>
    rw [Logs] at h
    have hne : k ≠ j := Ne.symm hkey
    rw [h,Function.update_of_ne hne] at hu
    exact ⟨hu,by simp⟩
  | move j parent place =>
    obtain ⟨n,_,rfl⟩ := h
    have hne : k ≠ j := Ne.symm hkey
    rw [Function.update_of_ne hne] at hu
    exact ⟨hu,by simp⟩
  | drop j =>
    obtain ⟨ht,hparent⟩ := h.2 k node hu
    refine ⟨ht,?_⟩
    intro p hp
    cases hp
    exact hparent

/-- A node that no further edit names is in its last state, and its parent is not dropped. -/
theorem untouched (h : History t es v) (hv : v k = some node) (hnames : ∀ e ∈ es, e.key ≠ k) :
    t k = some node ∧ ∀ p, .drop p ∈ es → node.parent ≠ some p := by
  induction h with
  | nil t => exact ⟨hv,by simp⟩
  | @cons t u v e es he _ ih =>
    obtain ⟨hu,hdrops⟩ := ih hv (fun f hf => hnames f (List.mem_cons_of_mem e hf))
    obtain ⟨ht,hdrop⟩ := logs_other he (hnames e List.mem_cons_self) hu
    refine ⟨ht,?_⟩
    intro p hp
    rcases List.mem_cons.mp hp with rfl | hp
    · exact hdrop p rfl
    · exact hdrops p hp

/-- A node that is not put again is there with its label, and it is not dropped. -/
theorem labelled (h : History t es v) (hv : v k = some node) (hput : ∀ n, .put k n ∉ es) :
    (∃ x, t k = some x ∧ x.label = node.label) ∧ .drop k ∉ es := by
  induction h with
  | nil t => exact ⟨⟨node,hv,rfl⟩,List.not_mem_nil⟩
  | @cons t u v e es he _ ih =>
    obtain ⟨⟨x,hx,hlabel⟩,hdrop⟩ := ih hv (fun n hn => hput n (List.mem_cons_of_mem e hn))
    by_cases hkey : e.key = k
    · cases e with
      | put j n =>
        subst hkey
        exact absurd List.mem_cons_self (hput n)
      | move j parent place =>
        subst hkey
        obtain ⟨y,hy,rfl⟩ := he
        obtain rfl := Option.some.inj ((Function.update_self j _ t).symm.trans hx)
        exact ⟨⟨y,hy,hlabel⟩,by simpa using hdrop⟩
      | drop j =>
        subst hkey
        cases he.1.symm.trans hx
    · refine ⟨⟨x,(logs_other he hkey hx).1,hlabel⟩,?_⟩
      rw [List.mem_cons,not_or]
      refine ⟨?_,hdrop⟩
      rintro rfl
      exact hkey rfl

/-- What is in the last tree and was not in the first has been put. -/
theorem survives_of_mem (h : History t es v) (ht : t k = none) (hv : v k ≠ none) :
    Survives k es := by
  induction es using List.reverseRecOn generalizing v with
  | nil =>
    cases h
    exact absurd ht hv
  | append_singleton es e ih =>
    obtain ⟨u,hes,hend⟩ := history_split h
    have he : Logs u e v := by
      cases hend with
      | cons he hnil =>
        cases hnil
        exact he
    obtain ⟨node,hnode⟩ := Option.ne_none_iff_exists'.mp hv
    by_cases hkey : e.key = k
    · cases e with
      | put j n =>
        subst hkey
        exact ⟨es,n,[],rfl,List.not_mem_nil⟩
      | move j parent place =>
        subst hkey
        obtain ⟨y,hy,rfl⟩ := he
        obtain ⟨xs,n,ys,rfl,hys⟩ := ih hes (by simp [Edit.key,hy])
        exact ⟨xs,n,ys++[.move j parent place],by simp,by simpa using hys⟩
      | drop j =>
        subst hkey
        exact absurd he.1 hv
    · have hu : u k ≠ none := by simp [(logs_other he hkey hnode).1]
      obtain ⟨xs,n,ys,rfl,hys⟩ := ih hes hu
      refine ⟨xs,n,ys++[e],by simp,?_⟩
      rw [List.mem_append,not_or,List.mem_singleton]
      refine ⟨hys,?_⟩
      rintro rfl
      exact hkey rfl

/-! ## Replicas -/

/-- What a replica makes of an edit that it reads. Here the children of a dropped node stay,
without a parent. -/
def replay (t : Tree K P L) : Edit K P L → Tree K P L
  | .put k node => Function.update t k (some node)
  | .move k parent place => Function.update t k ((t k).map (Node.moved · parent place))
  | .drop k => fun j => if j = k then none else (t j).map (Node.orphaned k none)

/-- An edit made before it is read, with other places than the log will give. -/
inductive Early : Edit K P L → Tree K P L → Tree K P L → Prop where
  | put (k : K) (node own : Node K P L) (t : Tree K P L) :
      Early (.put k node) t (Function.update t k (some own))
  | move {k : K} {t : Tree K P L} {node : Node K P L} (h : t k = some node)
      (parent ownParent : Option K) (place ownPlace : P) :
      Early (.move k parent place) t (Function.update t k (some (node.moved ownParent ownPlace)))
  | drop (k : K) (parent : Option K) (t : Tree K P L) :
      Early (.drop k) t (fun j => if j = k then none else (t j).map (Node.orphaned k parent))

/-- The trees a replica can have, and the edits that it has yet to read. -/
inductive Replica (first : Tree K P L) (log : List (Edit K P L)) (last : Tree K P L) :
    Tree K P L → List (Edit K P L) → Prop where
  | copied {before ahead later : List (Edit K P L)} {t : Tree K P L}
      (hlog : log = before++(ahead++later)) (hpast : History first (before++ahead) t)
      (hlater : History t later last) : Replica first log last t (ahead++later)
  | read {t : Tree K P L} {e : Edit K P L} {rest : List (Edit K P L)}
      (h : Replica first log last t (e::rest)) : Replica first log last (replay t e) rest
  | again {t : Tree K P L} {before more rest : List (Edit K P L)}
      (h : Replica first log last t rest) (hlog : log = before++(more++rest)) :
      Replica first log last t (more++rest)
  | early {t u : Tree K P L} {e : Edit K P L} {rest : List (Edit K P L)}
      (h : Replica first log last t rest) (he : e ∈ rest) (hearly : Early e t u) :
      Replica first log last u rest

theorem replica_suffix (h : Replica first log last t rest) : ∃ before, log = before++rest := by
  induction h with
  | @copied before ahead later t hlog _ _ => exact ⟨before,hlog⟩
  | @read t e rest _ ih =>
    obtain ⟨before,rfl⟩ := ih
    exact ⟨before++[e],by simp⟩
  | @again t before more rest _ hlog _ => exact ⟨before,hlog⟩
  | early _ _ _ ih => exact ih

theorem replica_history (h : Replica first log last t rest) (hlog : History first log last) :
    ∃ u, History u rest last := by
  obtain ⟨before,rfl⟩ := replica_suffix h
  obtain ⟨u,_,hrest⟩ := history_split hlog
  exact ⟨u,hrest⟩

structure Kept (k : K) (node : Node K P L) (t : Tree K P L) (rest : List (Edit K P L)) :
    Prop where
  settled : (∀ e ∈ rest, e.key ≠ k) → t k = some node
  present : (∀ n, .put k n ∉ rest) → ∃ x, t k = some x ∧ x.label = node.label

theorem kept_read {w : Tree K P L} (hw : History w (e::rest) last) (hlast : last k = some node)
    (h : Kept k node t (e::rest)) : Kept k node (replay t e) rest := by
  obtain ⟨x,he,hrest⟩ : ∃ x, Logs w e x ∧ History x rest last := by
    cases hw with
    | cons he hrest => exact ⟨_,he,hrest⟩
  constructor
  · intro hnames
    have hx := (untouched hrest hlast hnames).1
    by_cases hkey : e.key = k
    · cases e with
      | put j n =>
        subst hkey
        rw [Logs] at he
        rw [he] at hx
        simpa [replay,Edit.key] using hx
      | move j parent place =>
        subst hkey
        obtain ⟨old,_,rfl⟩ := he
        obtain ⟨mine,hmine,hlabel⟩ := h.present (by
          intro n hn
          rcases List.mem_cons.mp hn with hn | hn
          · cases hn
          · exact hnames _ hn rfl)
        have hnode : old.moved parent place = node := by
          simpa [Edit.key] using hx
        have hmoved : mine.moved parent place = old.moved parent place := by
          rw [← hnode,label_moved] at hlabel
          simp [Node.moved,hlabel]
        rw [Edit.key] at hmine ⊢
        simp [replay,hmine,hmoved,hnode]
      | drop j =>
        subst hkey
        cases he.1.symm.trans hx
    · have hall : ∀ f ∈ e::rest, f.key ≠ k := List.forall_mem_cons.mpr ⟨hkey,hnames⟩
      have ht := h.settled hall
      have hdrops := (untouched hw hlast hall).2
      cases e with
      | put j n =>
        have hne : k ≠ j := Ne.symm hkey
        rw [replay,Function.update_of_ne hne,ht]
      | move j parent place =>
        have hne : k ≠ j := Ne.symm hkey
        rw [replay,Function.update_of_ne hne,ht]
      | drop j =>
        have hne : k ≠ j := Ne.symm hkey
        have hparent := hdrops j List.mem_cons_self
        show (if k = j then none else (t k).map (Node.orphaned j none)) = some node
        rw [if_neg hne,ht,Option.map_some,orphaned_other hparent]
  · intro hput
    cases e with
    | put j n =>
      by_cases hkey : j = k
      · subst hkey
        obtain ⟨y,hy,hlabel⟩ := (labelled hrest hlast hput).1
        rw [Logs] at he
        rw [he,Function.update_self] at hy
        exact ⟨n,by simp [replay],by rw [Option.some.inj hy,hlabel]⟩
      · obtain ⟨y,hy,hlabel⟩ := h.present (by simpa [Ne.symm hkey] using hput)
        exact ⟨y,by simp [replay,Ne.symm hkey,hy],hlabel⟩
    | move j parent place =>
      obtain ⟨y,hy,hlabel⟩ := h.present (by simpa using hput)
      by_cases hkey : k = j
      · subst hkey
        exact ⟨y.moved parent place,by simp [replay,hy],hlabel⟩
      · exact ⟨y,by simp [replay,hkey,hy],hlabel⟩
    | drop j =>
      have hall : ∀ n, .put k n ∉ Edit.drop j::rest := by simpa using hput
      obtain ⟨y,hy,hlabel⟩ := h.present hall
      have hkey : k ≠ j := by
        rintro rfl
        exact (labelled hw hlast hall).2 List.mem_cons_self
      exact ⟨y.orphaned j none,by simp [replay,hkey,hy],by rw [label_orphaned,hlabel]⟩

theorem kept_early {w : Tree K P L} (hw : History w rest last) (hlast : last k = some node)
    (he : e ∈ rest) (hearly : Early e t u) (h : Kept k node t rest) : Kept k node u rest := by
  constructor
  · intro hnames
    have hkey := hnames e he
    have ht := h.settled hnames
    have hdrops := (untouched hw hlast hnames).2
    cases hearly with
    | put j n own =>
      have hne : k ≠ j := Ne.symm hkey
      rw [Function.update_of_ne hne,ht]
    | @move j _ old _ parent ownParent place ownPlace =>
      have hne : k ≠ j := Ne.symm hkey
      rw [Function.update_of_ne hne,ht]
    | drop j parent =>
      have hne : k ≠ j := Ne.symm hkey
      show (if k = j then none else (t k).map (Node.orphaned j parent)) = some node
      rw [if_neg hne,ht,Option.map_some,orphaned_other (hdrops j he)]
  · intro hput
    obtain ⟨x,hx,hlabel⟩ := h.present hput
    cases hearly with
    | put j n own =>
      have hkey : k ≠ j := by
        rintro rfl
        exact hput n he
      exact ⟨x,by rw [Function.update_of_ne hkey,hx],hlabel⟩
    | @move j _ old hold parent ownParent place ownPlace =>
      by_cases hkey : k = j
      · subst hkey
        obtain rfl := Option.some.inj (hold.symm.trans hx)
        exact ⟨old.moved ownParent ownPlace,Function.update_self .., hlabel⟩
      · exact ⟨x,by rw [Function.update_of_ne hkey,hx],hlabel⟩
    | drop j parent =>
      have hkey : k ≠ j := by
        rintro rfl
        exact (labelled hw hlast hput).2 he
      exact ⟨x.orphaned j parent,by simp [hkey,hx],by rw [label_orphaned,hlabel]⟩

theorem replica_kept (h : Replica first log last t rest) (hlog : History first log last)
    (hlast : last k = some node) : Kept k node t rest := by
  induction h with
  | @copied before ahead later t _ _ hlater =>
    constructor
    · intro hnames
      exact (untouched hlater hlast fun e he => hnames e (List.mem_append_right _ he)).1
    · intro hput
      exact (labelled hlater hlast fun n hn => hput n (List.mem_append_right _ hn)).1
  | read h ih =>
    obtain ⟨w,hw⟩ := replica_history h hlog
    exact kept_read hw hlast ih
  | @again t before more rest _ _ ih =>
    constructor
    · exact fun hnames => ih.settled fun e he => hnames e (List.mem_append_right _ he)
    · exact fun hput => ih.present fun n hn => hput n (List.mem_append_right _ hn)
  | early h he hearly ih =>
    obtain ⟨w,hw⟩ := replica_history h hlog
    exact kept_early hw hlast he hearly ih

/-- A replica that has read the log has every node of the primary. -/
theorem replica_converges (h : Replica first log last t []) (hlog : History first log last)
    (hlast : last k = some node) : t k = some node :=
  (replica_kept h hlog hlast).settled (by simp)

/-- Whatever a replica has beyond that was put and not dropped by an edit of its own. -/
theorem replica_survives (h : Replica first log last t rest) (hfirst : first k = none)
    (hput : ∀ n, .put k n ∉ rest) (hdrop : .drop k ∉ rest) (ht : t k ≠ none) :
    Survives k log := by
  induction h with
  | @copied before ahead later t hlog hpast _ =>
    obtain ⟨xs,n,ys,hsplit,hys⟩ := survives_of_mem hpast hfirst ht
    refine ⟨xs,n,ys++later,?_,?_⟩
    · rw [hlog,← List.append_assoc,hsplit]
      simp
    · rw [List.mem_append,not_or]
      exact ⟨hys,fun hmem => hdrop (List.mem_append_right _ hmem)⟩
  | @read t e rest h ih =>
    cases e with
    | put j n =>
      by_cases hkey : j = k
      · subst hkey
        obtain ⟨before,hlog⟩ := replica_suffix h
        exact ⟨before,n,rest,hlog,hdrop⟩
      · refine ih (by simpa [Ne.symm hkey] using hput) (by simpa using hdrop) ?_
        simpa [replay,Ne.symm hkey] using ht
    | move j parent place =>
      refine ih (by simpa using hput) (by simpa using hdrop) ?_
      by_cases hkey : k = j
      · subst hkey
        simpa [replay] using ht
      · simpa [replay,hkey] using ht
    | drop j =>
      have hkey : k ≠ j := by
        rintro rfl
        exact ht (if_pos rfl)
      refine ih (by simpa using hput) (by simp [hkey,hdrop]) ?_
      simpa [replay,hkey] using ht
  | @again t before more rest _ _ ih =>
    exact ih (fun n hn => hput n (List.mem_append_right _ hn))
      (fun hmem => hdrop (List.mem_append_right _ hmem)) ht
  | @early t u e rest _ he hearly ih =>
    refine ih hput hdrop ?_
    cases hearly with
    | put j n own =>
      have hkey : k ≠ j := by
        rintro rfl
        exact hput n he
      rwa [Function.update_of_ne hkey] at ht
    | @move j _ old hold parent ownParent place ownPlace =>
      by_cases hkey : k = j
      · subst hkey
        simp [hold]
      · rwa [Function.update_of_ne hkey] at ht
    | drop j parent =>
      have hkey : k ≠ j := by
        rintro rfl
        exact hdrop he
      simpa [hkey] using ht

end BlockDocs.LogReplicas
