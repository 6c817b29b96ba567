import BlockDocs.GuardedRun
import BlockDocs.Ledger
import BlockDocs.Wire

/-!
# Uploaded images

An upload checks that no file has its name, waits for the body, writes a temporary file
next to the image and renames it. Other requests come in between, and the temporary name is
itself a name that an image may have.
-/

set_option autoImplicit false

namespace BlockDocs.Images
open BlockDocs.Wire BlockDocs.GuardedRun BlockDocs.Ledger

abbrev FileName := List Char

abbrev Files := FileName → Option Bytes

structure HttpException where
  status : ℕ
  detail : String
  deriving DecidableEq, Repr

def maxImageBytes : ℕ := 20*1024*1024

/-! ## Names -/

def idChar (c : Char) : Bool := c.isAlphanum || c = '_' || c = '.' || c = '-'

def matchesId (s : List Char) : Bool := s.all idChar && 1 ≤ s.length && s.length ≤ 128

/-- The `$` of the pattern also matches ahead of a line break at the end. -/
def isImageId (s : List Char) : Bool :=
  matchesId s || (s.getLast? = some '\n' && matchesId s.dropLast)

def imagePath (imageId : List Char) : Except HttpException FileName :=
  if isImageId imageId then .ok imageId else .error ⟨400,"invalid image id"⟩

def rfindDot (name : FileName) : Option ℕ :=
  (name.reverse.idxOf? '.').map fun k => name.length-1-k

/-- The last component of the name, with its dot; a dot at either end does not count. -/
def suffix (name : FileName) : FileName :=
  match rfindDot name with
  | some i => if 0 < i ∧ i < name.length-1 then name.drop i else []
  | none => []

def withSuffix (name newSuffix : FileName) : FileName :=
  let oldSuffix := suffix name
  if oldSuffix = [] then name++newSuffix
  else name.take (name.length-oldSuffix.length)++newSuffix

def partName (path : FileName) : FileName := withSuffix path (suffix path++".part".toList)

def isDirectory (path : FileName) : Bool := path = ['.'] || path = ['.','.']

def pathExists (files : Files) (path : FileName) : Bool := isDirectory path || (files path).isSome

/-! ## The handlers -/

def uploadCheck (files : Files) (imageId : List Char) : Except HttpException FileName := do
  let path ← imagePath imageId
  if pathExists files path then throw ⟨409,"image already uploaded"⟩ else return path

def uploadBody (files : Files) (path : FileName) (body : Bytes) : Except HttpException Files :=
  if body.length > maxImageBytes then throw ⟨413,"image too large"⟩
  else return Function.update files (partName path) (some body)

/-- `os.replace`, which fails if there is no such file. -/
def replace (files : Files) (source target : FileName) : Option Files :=
  (files source).map fun body => Function.update (Function.update files source none) target
    (some body)

/-- A directory passes the check and is no file to respond with. -/
def serve (files : Files) (imageId : List Char) : Except HttpException Bytes := do
  let path ← imagePath imageId
  if pathExists files path then
    match files path with
    | some body => return body
    | none => throw ⟨500,"Internal Server Error"⟩
  else throw ⟨404,"not found"⟩

/-! ## The server -/

inductive Stage where
  | reading
  | written (body : Bytes)
  deriving DecidableEq, Repr

structure Upload where
  path : FileName
  stage : Stage
  deriving DecidableEq, Repr

structure Server where
  files : Files
  uploads : ℕ → Option Upload
  log : List (Event FileName Bytes)

/-- An upload is a request `r` that goes through `put`, `body` and `rename`, unless it is
cancelled. -/
inductive Action where
  | put (r : ℕ) (imageId : List Char)
  | body (r : ℕ) (bytes : Bytes)
  | rename (r : ℕ)
  | cancel (r : ℕ)
  | get (imageId : List Char)

def Server.set (s : Server) (r : ℕ) (u : Option Upload) : Server :=
  { s with uploads := Function.update s.uploads r u }

def step (s : Server) : Action → Option Server
  | .put r imageId =>
    match s.uploads r with
    | some _ => none
    | none =>
      match uploadCheck s.files imageId with
      | .ok path => some (s.set r (some ⟨path,.reading⟩))
      | .error _ => some s
  | .body r bytes =>
    match s.uploads r with
    | some ⟨path,.reading⟩ =>
      match uploadBody s.files path bytes with
      | .ok files => some { s.set r (some ⟨path,.written bytes⟩) with files }
      | .error _ => some (s.set r none)
    | _ => none
  | .rename r =>
    match s.uploads r with
    | some ⟨path,.written bytes⟩ =>
      match replace s.files (partName path) path with
      | some files => some { s.set r none with files, log := s.log++[.created path bytes] }
      | none => some (s.set r none)
    | _ => none
  | .cancel r =>
    match s.uploads r with
    | some _ => some (s.set r none)
    | none => none
  | .get imageId =>
    match serve s.files imageId with
    | .ok bytes => some { s with log := s.log++[.served imageId bytes] }
    | .error _ => some s

def start (files : Files) : Server := ⟨files,fun _ => none,[]⟩

variable {s s' : Server} {r r' : ℕ} {path path' name : FileName} {bytes bytes' : Bytes}

/-! ## The temporary name -/

theorem partName_eq (path : FileName) : partName path = path++".part".toList := by
  rw [partName,withSuffix]
  split
  · next h => rw [h,List.nil_append]
  · next h =>
    obtain ⟨i,hi,hsuffix⟩ : ∃ i, i ≤ path.length ∧ suffix path = path.drop i := by
      unfold suffix at h ⊢
      split at h
      · next i hdot =>
        split at h
        · next hi => exact ⟨i,by omega,by rw [if_pos hi]⟩
        · exact absurd rfl h
      · exact absurd rfl h
    have hstem : path.length-(suffix path).length = i := by
      rw [hsuffix,List.length_drop]
      omega
    rw [hstem,hsuffix,← List.append_assoc,List.take_append_drop]

theorem partName_injective (h : partName path = partName path') : path = path' := by
  rw [partName_eq,partName_eq] at h
  exact List.append_cancel_right h

/-! ## What a step does -/

def Server.Reading (s : Server) (r : ℕ) (path : FileName) : Prop :=
  s.uploads r = some ⟨path,.reading⟩

def Server.Written (s : Server) (r : ℕ) (path : FileName) (bytes : Bytes) : Prop :=
  s.uploads r = some ⟨path,.written bytes⟩

inductive Effect (s : Server) : Action → Server → Prop where
  | waits (r : ℕ) (imageId : List Char) (path : FileName) :
      Effect s (.put r imageId) (s.set r (some ⟨path,.reading⟩))
  | refused (r : ℕ) (imageId : List Char) : Effect s (.put r imageId) s
  | writes {r : ℕ} {path : FileName} (bytes : Bytes) (h : s.Reading r path)
      (hsize : bytes.length ≤ maxImageBytes) : Effect s (.body r bytes)
      { s.set r (some ⟨path,.written bytes⟩) with
        files := Function.update s.files (partName path) (some bytes) }
  | dropped (r : ℕ) (a : Action) : Effect s a (s.set r none)
  | renames {r : ℕ} {path : FileName} {bytes content : Bytes} (h : s.Written r path bytes)
      (hpart : s.files (partName path) = some content) : Effect s (.rename r)
      { s.set r none with
        files := Function.update (Function.update s.files (partName path) none) path (some content),
        log := s.log++[.created path bytes] }
  | answers {imageId : List Char} {bytes : Bytes} (h : s.files imageId = some bytes) :
      Effect s (.get imageId) { s with log := s.log++[.served imageId bytes] }
  | fails (imageId : List Char) : Effect s (.get imageId) s

theorem uploadBody_ok {files files' : Files} (h : uploadBody files path bytes = .ok files') :
    bytes.length ≤ maxImageBytes ∧
      files' = Function.update files (partName path) (some bytes) := by
  unfold uploadBody at h
  split at h
  · cases h
  · next hsize =>
    cases h
    exact ⟨by omega,rfl⟩

theorem replace_some {files files' : Files} {source target : FileName}
    (h : replace files source target = some files') : ∃ content, files source = some content ∧
      files' = Function.update (Function.update files source none) target (some content) := by
  obtain ⟨content,hsource,hfiles⟩ := Option.map_eq_some_iff.mp h
  exact ⟨content,hsource,hfiles.symm⟩

theorem serve_ok {files : Files} {imageId : List Char} (h : serve files imageId = .ok bytes) :
    files imageId = some bytes := by
  simp only [serve,imagePath,bind,Except.bind] at h
  split at h
  · cases h
  · next path hpath =>
    split at hpath
    · cases hpath
      split at h
      · split at h
        · next hfile =>
          cases h
          exact hfile
        · cases h
      · cases h
    · cases hpath

theorem step_effect {a : Action} (h : step s a = some s') : Effect s a s' := by
  cases a with
  | put r imageId =>
    simp only [step] at h
    split at h
    · cases h
    · split at h
      · cases h
        exact .waits r imageId _
      · cases h
        exact .refused r imageId
  | body r bytes =>
    simp only [step] at h
    split at h
    · next path hreading =>
      split at h
      · next files hbody =>
        cases h
        obtain ⟨hsize,rfl⟩ := uploadBody_ok hbody
        exact .writes bytes hreading hsize
      · cases h
        exact .dropped r _
    · cases h
  | rename r =>
    simp only [step] at h
    split at h
    · next path bytes hwritten =>
      split at h
      · next files hfiles =>
        cases h
        obtain ⟨content,hpart,rfl⟩ := replace_some hfiles
        exact .renames hwritten hpart
      · cases h
        exact .dropped r _
    · cases h
  | cancel r =>
    simp only [step] at h
    split at h
    · cases h
      exact .dropped r _
    · cases h
  | get imageId =>
    simp only [step] at h
    split at h
    · next bytes hserve =>
      cases h
      exact .answers (serve_ok hserve)
    · cases h
      exact .fails imageId

/-! ## What holds while no upload writes over another one -/

def Free (s : Server) (r : ℕ) (name : FileName) : Prop :=
  ¬Completed s.log name ∧
    ∀ r' path bytes, r' ≠ r → s.Written r' path bytes → partName path ≠ name

/-- The names that the step writes to are free. -/
def Clear (s : Server) : Action → Prop
  | .body r bytes => bytes.length ≤ maxImageBytes →
    ∀ path, s.Reading r path → Free s r (partName path)
  | .rename r => ∀ path bytes, s.Written r path bytes → Free s r path
  | _ => True

/-- Completed images are there, and so are the temporary files, each with the body of its
upload and under a name of its own. -/
structure Kept (s : Server) : Prop where
  backed : Backed s.files s.log
  parts : ∀ r path bytes, s.Written r path bytes → s.files (partName path) = some bytes
  apart : ∀ r r' path bytes bytes', s.Written r path bytes → s.Written r' path bytes' → r = r'
  free : ∀ r path bytes, s.Written r path bytes → ¬Completed s.log (partName path)

theorem written_set_ne {u : Option Upload} (hr : r' ≠ r) :
    (s.set r u).Written r' path bytes ↔ s.Written r' path bytes := by
  change Function.update s.uploads r u r' = _ ↔ _
  rw [Function.update_of_ne hr]
  rfl

theorem written_set_self {u : Option Upload} :
    (s.set r u).Written r path bytes ↔ u = some ⟨path,.written bytes⟩ := by
  change Function.update s.uploads r u r = _ ↔ _
  rw [Function.update_self]

/-- After `r` has left its stage, what is written was written by the others. -/
theorem written_of_set {u : Option Upload} (hu : ∀ path bytes, u ≠ some ⟨path,.written bytes⟩)
    (h : (s.set r u).Written r' path bytes) : r' ≠ r ∧ s.Written r' path bytes := by
  by_cases hr : r' = r
  · subst hr
    exact absurd (written_set_self.mp h) (hu path bytes)
  · exact ⟨hr,(written_set_ne hr).mp h⟩

theorem kept_start (files : Files) : Kept (start files) where
  backed := backed_nil files
  parts := nofun
  apart := nofun
  free := nofun

theorem kept_set (h : Kept s) {u : Option Upload}
    (hu : ∀ path bytes, u ≠ some ⟨path,.written bytes⟩) : Kept (s.set r u) where
  backed := h.backed
  parts := fun r' path bytes hw => h.parts r' path bytes (written_of_set hu hw).2
  apart := fun r₁ r₂ path b b' h₁ h₂ =>
    h.apart r₁ r₂ path b b' (written_of_set hu h₁).2 (written_of_set hu h₂).2
  free := fun r' path bytes hw => h.free r' path bytes (written_of_set hu hw).2

theorem kept_served (h : Kept s) (name : FileName) (bytes : Bytes) :
    Kept { s with log := s.log++[.served name bytes] } where
  backed := backed_served h.backed name bytes
  parts := h.parts
  apart := h.apart
  free := fun r path b hw hc => h.free r path b hw (completed_served hc)

theorem kept_writes (h : Kept s) (hfree : Free s r (partName path)) :
    Kept { s.set r (some ⟨path,.written bytes⟩) with
      files := Function.update s.files (partName path) (some bytes) } := by
  -- another upload's temporary file is a different one
  have hother : ∀ r' path' b, r' ≠ r → s.Written r' path' b → path' ≠ path := by
    intro r' path' b hr hw heq
    exact hfree.2 r' path' b hr hw (congrArg partName heq)
  refine ⟨?_,?_,?_,?_⟩
  · apply backed_of_kept h.backed
    intro name hc
    have hname : name ≠ partName path := fun heq => hfree.1 (heq ▸ hc)
    exact Function.update_of_ne hname _ _
  · intro r' path' b hw
    by_cases hr : r' = r
    · subst hr
      cases written_set_self.mp hw
      exact Function.update_self _ _ _
    · have hold := (written_set_ne hr).mp hw
      change Function.update s.files (partName path) (some bytes) (partName path') = some b
      rw [Function.update_of_ne (hfree.2 r' path' b hr hold)]
      exact h.parts r' path' b hold
  · intro r₁ r₂ path' b b' h₁ h₂
    by_cases hr₁ : r₁ = r
    · subst hr₁
      cases written_set_self.mp h₁
      by_contra hne
      exact hother r₂ path b' (Ne.symm hne) ((written_set_ne (Ne.symm hne)).mp h₂) rfl
    · by_cases hr₂ : r₂ = r
      · subst hr₂
        cases written_set_self.mp h₂
        exact absurd rfl (hother r₁ path b hr₁ ((written_set_ne hr₁).mp h₁))
      · exact h.apart r₁ r₂ path' b b' ((written_set_ne hr₁).mp h₁) ((written_set_ne hr₂).mp h₂)
  · intro r' path' b hw
    by_cases hr : r' = r
    · subst hr
      cases written_set_self.mp hw
      exact hfree.1
    · exact h.free r' path' b ((written_set_ne hr).mp hw)

theorem kept_renames (h : Kept s) (hw : s.Written r path bytes) (hfree : Free s r path) :
    Kept { s.set r none with
      files := Function.update (Function.update s.files (partName path) none) path (some bytes),
      log := s.log++[.created path bytes] } := by
  have hgone : ∀ path' b, (none : Option Upload) ≠ some ⟨path',.written b⟩ := nofun
  refine ⟨?_,?_,?_,?_⟩
  · apply backed_created h.backed
    · intro name hc
      have hname : name ≠ path := fun heq => hfree.1 (heq ▸ hc)
      have hpart : name ≠ partName path := fun heq => h.free r path bytes hw (heq ▸ hc)
      change Function.update (Function.update s.files (partName path) none) path (some bytes)
        name = s.files name
      rw [Function.update_of_ne hname,Function.update_of_ne hpart]
    · exact Function.update_self _ _ _
  · intro r' path' b hw'
    obtain ⟨hr,hold⟩ := written_of_set hgone hw'
    have hpart : partName path' ≠ partName path := by
      intro heq
      cases partName_injective heq
      exact hr (h.apart r' r path b bytes hold hw)
    change Function.update (Function.update s.files (partName path) none) path (some bytes)
      (partName path') = some b
    rw [Function.update_of_ne (hfree.2 r' path' b hr hold),Function.update_of_ne hpart]
    exact h.parts r' path' b hold
  · intro r₁ r₂ path' b b' h₁ h₂
    exact h.apart r₁ r₂ path' b b' (written_of_set hgone h₁).2 (written_of_set hgone h₂).2
  · intro r' path' b hw' hc
    obtain ⟨hr,hold⟩ := written_of_set hgone hw'
    rcases completed_created hc with hc | heq
    · exact h.free r' path' b hold hc
    · exact hfree.2 r' path' b hr hold heq

/-- A step that writes to free names keeps all of it, and serves what was created. -/
theorem step_kept {a : Action} (h : Kept s) (honce : WriteOnce s.log) (hs : step s a = some s')
    (hclear : Clear s a) : Kept s' ∧ WriteOnce s'.log := by
  cases step_effect hs with
  | waits r imageId path => exact ⟨kept_set h nofun,honce⟩
  | refused r imageId => exact ⟨h,honce⟩
  | writes bytes hreading hsize =>
    exact ⟨kept_writes h (hclear hsize _ hreading),honce⟩
  | dropped r a => exact ⟨kept_set h nofun,honce⟩
  | renames hwritten hpart =>
    -- the temporary file holds the body of this upload
    cases (h.parts _ _ _ hwritten).symm.trans hpart
    exact ⟨kept_renames h hwritten (hclear _ _ hwritten),writeOnce_created honce _ _⟩
  | answers hfile => exact ⟨kept_served h _ _,writeOnce_served honce h.backed hfile⟩
  | fails imageId => exact ⟨h,honce⟩

/-- In a run whose uploads write to free names only, an image is served as it was created. -/
theorem writeOnce_of_clear {files : Files} {actions : List Action}
    (h : Along step Clear (start files) actions) :
    Throughout step (fun s => WriteOnce s.log) (start files) actions := by
  have hall : Throughout step (fun s => Kept s ∧ WriteOnce s.log) (start files) actions := by
    apply throughout_of_along _ ⟨kept_start files,writeOnce_nil⟩ h
    intro s a s' hp hs hclear
    exact step_kept hp.1 hp.2 hs hclear
  exact throughout_mono (fun _ hs => hs.2) hall

/-- No other upload is under way. -/
theorem free_alone {name : FileName} (hc : ¬Completed s.log name)
    (h : ∀ r', r' ≠ r → s.uploads r' = none) : Free s r name := by
  refine ⟨hc,fun r' path bytes hr hw => ?_⟩
  rw [Server.Written,h r' hr] at hw
  cases hw

theorem writeOnce_of_clear_alone : Throughout step (fun s => WriteOnce s.log)
    (start fun _ => none) [.put 0 ['a'],.body 0 [1],.rename 0,.put 1 ['a'],.get ['a']] := by
  have hnone : ∀ name, ¬Completed ([] : List (Event FileName Bytes)) name := by
    rintro name ⟨_,hv⟩
    exact absurd hv List.not_mem_nil
  have halone : ∀ (u : Upload) (r : ℕ), r ≠ 0 →
      Function.update (fun _ => none) 0 (some u) r = none :=
    fun u r hr => Function.update_of_ne hr _ _
  have hwritten : ∀ (u v : Upload) (r : ℕ), r ≠ 0 →
      Function.update (Function.update (fun _ => none) 0 (some u)) 0 (some v) r = none := by
    intro u v r hr
    rw [Function.update_of_ne hr,halone u r hr]
  exact writeOnce_of_clear (along_cons rfl trivial
    (along_cons rfl (fun _ _ _ => free_alone (hnone _) (halone _))
      (along_cons rfl (fun _ _ _ => free_alone (hnone _) (hwritten _ _))
        (along_cons rfl trivial (along_cons rfl trivial trivial)))))

/-- Two uploads of one image both pass the check; each succeeds, and the second one
replaces the image of the first. -/
theorem upload_overwritten : ∃ s, exec step (start fun _ => none)
      [.put 0 ['a'],.put 1 ['a'],.body 0 [1],.rename 0,.body 1 [2],.rename 1,.get ['a']] = some s ∧
    s.log = [.created ['a'] [1],.created ['a'] [2],.served ['a'] [2]] ∧ ¬WriteOnce s.log := by
  refine ⟨_,rfl,rfl,fun h => ?_⟩
  have hserved := (List.pairwise_cons.mp h).1 (.served ['a'] [2]) (by decide)
  exact absurd (hserved ['a'] [1] [2] rfl rfl) (by decide)

end BlockDocs.Images
