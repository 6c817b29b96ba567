import BlockDocs.Decimal
import BlockDocs.Images

/-!
# Images that browsers upload

A browser asks for an id of its own and puts its file there, once. Each such upload is accepted
whatever comes in between, and from then on the id serves the file. Ids of two users differ even
where their tokens do not.
-/

set_option autoImplicit false

namespace BlockDocs.PresignedImages
open BlockDocs.Wire BlockDocs.Decimal BlockDocs.GuardedRun BlockDocs.Ledger BlockDocs.Images

/-! ## The cookie -/

-- What `int` strips, of the characters that a header may have.
def isSpace (c : Char) : Bool :=
  c.toNat ∈ [9,10,11,12,13,32,0x85,0xa0]

def strip (cs : List Char) : List Char :=
  ((cs.dropWhile isSpace).reverse.dropWhile isSpace).reverse

/-- Digits with single underscores between them, as many as `int` converts. -/
def intDigits (cs : List Char) : Option ℕ :=
  let groups := cs.splitOn '_'
  if (∀ g ∈ groups, g ≠ []) ∧ groups.flatten.length ≤ 4300 then readDecimal groups.flatten
  else none

def int (raw : List Char) : Option ℤ :=
  match strip raw with
  | '+'::cs => (intDigits cs).map Int.ofNat
  | '-'::cs => (intDigits cs).map (fun n => -Int.ofNat n)
  | cs => (intDigits cs).map Int.ofNat

def resolveUid (cookie : Option (List Char)) : ℕ :=
  match cookie with
  | none => 1
  | some raw =>
    if raw = [] then 1
    else
      match int raw with
      | some n => if 0 < n then n.toNat else 1
      | none => 1

example : resolveUid (some " +1_2".toList) = 12 := by decide

/-! ## Presigned ids -/

def allowedContentTypes : List String :=
  ["image/png","image/jpeg","image/webp","image/gif","image/avif","image/svg+xml"]

def extensions : List (String × String) :=
  [("image/png",".png"),("image/jpeg",".jpg"),("image/webp",".webp"),("image/gif",".gif"),
    ("image/avif",".avif"),("image/svg+xml",".svg")]

/-- Other types do not come here. -/
def extFor (contentType : String) : List Char :=
  (((extensions.find? (fun e => e.1 = contentType)).map Prod.snd).getD ".bin").toList

def presignedId (uid : ℕ) (token : List Char) (contentType : String) : List Char :=
  "uid-".toList++(decimal uid++ '-'::(token++extFor contentType))

structure PresignRequest where
  contentType : String
  size : ℤ

structure PresignResponse where
  uploadUrl : List Char
  publicUrl : List Char
  imageId : List Char

def rstripSlash (base : List Char) : List Char := (base.reverse.dropWhile (· = '/')).reverse

def presign (apiBaseUrl : List Char) (body : PresignRequest) (cookie : Option (List Char))
    (token : List Char) : Except HttpException PresignResponse :=
  if body.contentType ∉ allowedContentTypes then .error ⟨400,"unsupported content type"⟩
  else if body.size ≤ 0 ∨ maxImageBytes < body.size then .error ⟨400,"invalid size"⟩
  else
    let imageId := presignedId (resolveUid cookie) token body.contentType
    let base := rstripSlash apiBaseUrl
    .ok ⟨base++"/api/v1/images/upload/".toList++imageId,base++"/api/v1/images/".toList++imageId,
      imageId⟩

def IsToken (token : List Char) : Prop :=
  token.length = 16 ∧ ∀ c ∈ token, (c.isAlphanum || c = '-' || c = '_') = true

variable {uid uid' : ℕ} {token token' : List Char} {contentType contentType' : String}

/-- The tag of the user can be read back. -/
theorem uid_of_presigned (h : presignedId uid token contentType =
    presignedId uid' token' contentType') : uid = uid' := by
  have hrest := List.append_cancel_left h
  have hdigits := congrArg (List.takeWhile Char.isDigit) hrest
  rw [takeWhile_decimal uid (by decide),takeWhile_decimal uid' (by decide)] at hdigits
  have hread := congrArg readDecimal hdigits
  rw [readDecimal_decimal,readDecimal_decimal] at hread
  exact Option.some.inj hread

theorem token_of_presigned (htoken : IsToken token) (htoken' : IsToken token')
    (h : presignedId uid token contentType = presignedId uid' token' contentType') :
    token = token' := by
  obtain rfl := uid_of_presigned h
  have hrest := List.append_cancel_left (List.append_cancel_left h)
  exact List.append_inj_left (List.cons.inj hrest).2 (htoken.1.trans htoken'.1.symm)

theorem idChar_urlsafe {c : Char} (h : (c.isAlphanum || c = '-' || c = '_') = true) :
    idChar c = true := by
  simp only [idChar,Bool.or_eq_true,decide_eq_true_eq] at h ⊢
  tauto

theorem extFor_allowed (h : contentType ∈ allowedContentTypes) :
    (∀ c ∈ extFor contentType, idChar c = true) ∧ extFor contentType ≠ [] ∧
      (extFor contentType).getLast? ≠ some 't' := by
  have hall : ∀ ct ∈ allowedContentTypes, (extFor ct).all idChar = true ∧
      extFor ct ≠ [] ∧ (extFor ct).getLast? ≠ some 't' := by decide
  obtain ⟨hchars,hrest⟩ := hall contentType h
  exact ⟨List.all_eq_true.mp hchars,hrest⟩

theorem presigned_idChar (htoken : IsToken token) (h : contentType ∈ allowedContentTypes)
    {c : Char} (hc : c ∈ presignedId uid token contentType) : idChar c = true := by
  rcases List.mem_append.mp hc with hc | hc
  · have hall : "uid-".toList.all idChar = true := by decide
    exact List.all_eq_true.mp hall c hc
  · rcases List.mem_append.mp hc with hc | hc
    · have hdigit := decimal_digits uid hc
      simp [idChar,Char.isAlphanum,hdigit]
    · rcases List.mem_cons.mp hc with rfl | hc
      · rfl
      · rcases List.mem_append.mp hc with hc | hc
        · exact idChar_urlsafe (htoken.2 c hc)
        · exact (extFor_allowed h).1 c hc

/-- The pattern of image ids takes a presigned id unless the number of the user is too long. -/
theorem presigned_isImageId_iff (htoken : IsToken token) (h : contentType ∈ allowedContentTypes) :
    isImageId (presignedId uid token contentType) = true ↔
      (presignedId uid token contentType).length ≤ 128 := by
  have hall : (presignedId uid token contentType).all idChar = true :=
    List.all_eq_true.mpr fun c hc => presigned_idChar htoken h hc
  have hlast : (presignedId uid token contentType).getLast? ≠ some '\n' := by
    intro hlast
    have hc := presigned_idChar htoken h (List.mem_of_getLast? hlast)
    exact absurd hc (by decide)
  have hlen : 1 ≤ (presignedId uid token contentType).length := by
    simp [presignedId]
  simp [isImageId,matchesId,hall,hlast,hlen]

/-- No presigned id is the name of a temporary file. -/
theorem presigned_no_part (h : contentType ∈ allowedContentTypes) (path : FileName) :
    partName path ≠ presignedId uid token contentType := by
  intro heq
  obtain ⟨_,hne,hlast⟩ := extFor_allowed h
  have hpart : (partName path).getLast? = some 't' := by
    rw [partName_eq,List.getLast?_append]
    rfl
  have hid : (presignedId uid token contentType).getLast? = (extFor contentType).getLast? := by
    have hsplit : presignedId uid token contentType =
        ("uid-".toList++(decimal uid++ '-'::token))++extFor contentType := by
      simp [presignedId]
    rw [hsplit,List.getLast?_append_of_ne_nil _ hne]
  rw [heq,hid] at hpart
  exact hlast hpart

theorem presigned_no_directory : isDirectory (presignedId uid token contentType) = false := by
  simp [isDirectory,presignedId]

/-! ## The site -/

/-- One call of `uploadImage`, with the answer to its presign request. -/
structure Flow where
  uid : ℕ
  token : List Char
  contentType : String
  file : Bytes
  sent : Bool

def Flow.imageId (f : Flow) : List Char := presignedId f.uid f.token f.contentType

structure Site where
  server : Server
  flows : ℕ → Option Flow

inductive Action where
  | pick (r : ℕ) (cookie : Option (List Char)) (type : String) (file : Bytes) (token : List Char)
  | put (r : ℕ)
  | body (r : ℕ)
  | rename (r : ℕ)
  | cancel (r : ℕ)
  | get (imageId : List Char)

def typeOf (type : String) : String := if type = "" then "application/octet-stream" else type

def Site.serve (s : Site) (a : Images.Action) : Option Site :=
  (Images.step s.server a).map fun server => { s with server }

/-- A call `r` asks for an id and then puts its file there, as request `r` of the server. -/
def step (apiBaseUrl : List Char) (s : Site) : Action → Option Site
  | .pick r cookie type file token =>
    match s.flows r with
    | some _ => none
    | none =>
      match presign apiBaseUrl ⟨typeOf type,file.length⟩ cookie token with
      | .ok _ => some { s with
          flows := Function.update s.flows r
            (some ⟨resolveUid cookie,token,typeOf type,file,false⟩) }
      | .error _ => some s
  | .put r =>
    match s.flows r with
    | some f =>
      if f.sent then none
      else (Images.step s.server (.put r f.imageId)).map fun server =>
        ⟨server,Function.update s.flows r (some { f with sent := true })⟩
    | none => none
  | .body r => (s.flows r).bind fun f => s.serve (.body r f.file)
  | .rename r => s.serve (.rename r)
  | .cancel r => s.serve (.cancel r)
  | .get imageId => s.serve (.get imageId)

def start (files : Files) : Site := ⟨Images.start files,fun _ => none⟩

variable {apiBaseUrl : List Char} {s t : Site} {a : Action} {r r' : ℕ} {f f' : Flow}

theorem presign_ok {body : PresignRequest} {cookie : Option (List Char)} {resp : PresignResponse}
    (h : presign apiBaseUrl body cookie token = .ok resp) :
    body.contentType ∈ allowedContentTypes ∧ body.size ≤ maxImageBytes ∧
      resp.imageId = presignedId (resolveUid cookie) token body.contentType := by
  unfold presign at h
  split at h
  · cases h
  · next htype =>
    split at h
    · cases h
    · next hsize =>
      cases h
      exact ⟨not_not.mp htype,by omega,rfl⟩

/-- A token that the user has not got before, for an id of at most 128 characters that no file
has from earlier on. -/
def Unguessed (s : Site) : Action → Prop
  | .pick r cookie type _ token => IsToken token ∧
    (presignedId (resolveUid cookie) token (typeOf type)).length ≤ 128 ∧
    s.server.files (presignedId (resolveUid cookie) token (typeOf type)) = none ∧
    ∀ r' f, r' ≠ r → s.flows r' = some f → f.uid = resolveUid cookie → f.token ≠ token
  | _ => True

structure Sound (s : Site) : Prop where
  kept : Kept s.server
  once : WriteOnce s.server.log
  token : ∀ r f, s.flows r = some f → IsToken f.token
  type : ∀ r f, s.flows r = some f → f.contentType ∈ allowedContentTypes
  size : ∀ r f, s.flows r = some f → f.file.length ≤ maxImageBytes
  short : ∀ r f, s.flows r = some f → f.imageId.length ≤ 128
  apart : ∀ r r' f f', s.flows r = some f → s.flows r' = some f' → f.imageId = f'.imageId → r = r'
  idle : ∀ r f, s.flows r = some f → f.sent = false → s.server.files f.imageId = none
  uploads : ∀ r u, s.server.uploads r = some u → ∃ f, s.flows r = some f ∧ f.sent = true ∧
    u.path = f.imageId ∧ ∀ bytes, u.stage = .written bytes → bytes = f.file
  created : ∀ name bytes, Event.created name bytes ∈ s.server.log → ∃ r f, s.flows r = some f ∧
    f.sent = true ∧ s.server.uploads r = none ∧ f.imageId = name ∧ f.file = bytes

theorem sound_start (files : Files) : Sound (start files) where
  kept := kept_start files
  once := writeOnce_nil
  token := nofun
  type := nofun
  size := nofun
  short := nofun
  apart := nofun
  idle := nofun
  uploads := nofun
  created := fun _ _ h => absurd h List.not_mem_nil

/-! ## Requests that come through -/

theorem put_accepted (h : Sound s) (hf : s.flows r = some f) (hsent : f.sent = false) :
    uploadCheck s.server.files f.imageId = .ok f.imageId := by
  have hid : isImageId f.imageId = true :=
    (presigned_isImageId_iff (h.token r f hf) (h.type r f hf)).mpr (h.short r f hf)
  have hexists : pathExists s.server.files f.imageId = false := by
    rw [pathExists,h.idle r f hf hsent,Bool.or_eq_false_iff]
    exact ⟨presigned_no_directory,rfl⟩
  simp [uploadCheck,imagePath,hid,hexists,bind,Except.bind,pure,Except.pure]

theorem idle_upload (h : Sound s) (hf : s.flows r = some f) (hsent : f.sent = false) :
    s.server.uploads r = none := by
  by_contra hne
  obtain ⟨u,hu⟩ := Option.ne_none_iff_exists'.mp hne
  obtain ⟨f',hf',hsent',_⟩ := h.uploads r u hu
  obtain rfl := Option.some.inj (hf.symm.trans hf')
  cases hsent.symm.trans hsent'

theorem put_step (h : Sound s) (hf : s.flows r = some f) (hsent : f.sent = false) :
    Images.step s.server (.put r f.imageId) =
      some (s.server.set r (some ⟨f.imageId,.reading⟩)) := by
  simp only [Images.step,idle_upload h hf hsent,put_accepted h hf hsent]

/-- The path of an upload is the id of its flow. -/
theorem upload_flow (h : Sound s) {u : Upload} (hu : s.server.uploads r = some u)
    (hf : s.flows r = some f) : f.sent = true ∧ u.path = f.imageId ∧
      ∀ bytes, u.stage = .written bytes → bytes = f.file := by
  obtain ⟨f',hf',hflow⟩ := h.uploads r u hu
  obtain rfl := Option.some.inj (hf.symm.trans hf')
  exact hflow

theorem flow_no_part (h : Sound s) (hf : s.flows r = some f) (path : FileName) :
    partName path ≠ f.imageId := presigned_no_part (h.type r f hf) path

theorem part_incomplete (h : Sound s) (path : FileName) :
    ¬Completed s.server.log (partName path) := by
  rintro ⟨bytes,hcreated⟩
  obtain ⟨r,f,hf,_,_,hid,_⟩ := h.created _ _ hcreated
  exact flow_no_part h hf path hid.symm

theorem same_path (h : Sound s) {u u' : Upload} (hu : s.server.uploads r = some u)
    (hu' : s.server.uploads r' = some u') (heq : u.path = u'.path) : r = r' := by
  obtain ⟨f,hf,_,hpath,_⟩ := h.uploads r u hu
  obtain ⟨f',hf',_,hpath',_⟩ := h.uploads r' u' hu'
  exact h.apart r r' f f' hf hf' (hpath.symm.trans (heq.trans hpath'))

theorem clear_body (h : Sound s) (bytes : Bytes) : Clear s.server (.body r bytes) := by
  intro _ path hreading
  refine ⟨part_incomplete h path,?_⟩
  intro r' path' b hr hwritten heq
  exact hr (same_path h hwritten hreading (partName_injective heq))

theorem clear_rename (h : Sound s) : Clear s.server (.rename r) := by
  intro path bytes hwritten
  obtain ⟨f,hf,_,hpath,_⟩ := h.uploads r _ hwritten
  refine ⟨?_,?_⟩
  · rintro ⟨b,hcreated⟩
    obtain ⟨r',f',hf',_,hnone,hid,_⟩ := h.created _ _ hcreated
    obtain rfl := h.apart r' r f' f hf' hf (hid.trans hpath)
    cases hnone.symm.trans hwritten
  · intro r' path' b _ _ heq
    exact flow_no_part h hf path' (heq.trans hpath)

/-! ## Steps -/

theorem sound_set (h : Sound s) : Sound { s with server := s.server.set r none } where
  kept := kept_set h.kept nofun
  once := h.once
  token := h.token
  type := h.type
  size := h.size
  short := h.short
  apart := h.apart
  idle := h.idle
  uploads := by
    intro r' u hu
    change Function.update s.server.uploads r none r' = some u at hu
    by_cases hr : r' = r
    · rw [hr,Function.update_self] at hu
      cases hu
    · rw [Function.update_of_ne hr] at hu
      exact h.uploads r' u hu
  created := by
    intro name bytes hcreated
    obtain ⟨r',f,hf,hsent,hnone,hid,hfile⟩ := h.created name bytes hcreated
    refine ⟨r',f,hf,hsent,?_,hid,hfile⟩
    change Function.update s.server.uploads r none r' = none
    by_cases hr : r' = r
    · rw [hr,Function.update_self]
    · rw [Function.update_of_ne hr,hnone]

theorem sound_body (h : Sound s) (hf : s.flows r = some f) {server : Server}
    (hs : Images.step s.server (.body r f.file) = some server) : Sound { s with server } := by
  obtain ⟨hkept,honce⟩ := step_kept h.kept h.once hs (clear_body h f.file)
  cases step_effect hs with
  | dropped => exact sound_set h
  | @writes _ path _ hreading hsize =>
    obtain ⟨hsent,hpath,_⟩ := upload_flow h hreading hf
    refine ⟨hkept,honce,h.token,h.type,h.size,h.short,h.apart,?_,?_,?_⟩
    · intro r' f' hf' hsent'
      change Function.update s.server.files (partName path) (some f.file) f'.imageId = none
      rw [Function.update_of_ne (Ne.symm (flow_no_part h hf' path))]
      exact h.idle r' f' hf' hsent'
    · intro r' u hu
      change Function.update s.server.uploads r _ r' = some u at hu
      by_cases hr : r' = r
      · subst hr
        rw [Function.update_self] at hu
        cases hu
        refine ⟨f,hf,hsent,hpath,?_⟩
        rintro bytes heq
        cases heq
        rfl
      · rw [Function.update_of_ne hr] at hu
        exact h.uploads r' u hu
    · intro name bytes hcreated
      obtain ⟨r',f',hf',hsent',hnone,hid,hfile⟩ := h.created name bytes hcreated
      have hr : r' ≠ r := by
        rintro rfl
        cases hnone.symm.trans hreading
      exact ⟨r',f',hf',hsent',(Function.update_of_ne hr _ _).trans hnone,hid,hfile⟩

theorem sound_rename (h : Sound s) {server : Server}
    (hs : Images.step s.server (.rename r) = some server) : Sound { s with server } := by
  obtain ⟨hkept,honce⟩ := step_kept h.kept h.once hs (clear_rename h)
  cases step_effect hs with
  | dropped => exact sound_set h
  | @renames _ path bytes content hwritten hpart =>
    obtain ⟨f,hf,hsent,hpath,hbytes⟩ := h.uploads r _ hwritten
    have hset := sound_set (r := r) h
    refine ⟨hkept,honce,h.token,h.type,h.size,h.short,h.apart,?_,hset.uploads,?_⟩
    · intro r' f' hf' hsent'
      have hother : f'.imageId ≠ path := by
        intro heq
        obtain rfl := h.apart r' r f' f hf' hf (heq.trans hpath)
        obtain rfl := Option.some.inj (hf.symm.trans hf')
        cases hsent.symm.trans hsent'
      change Function.update (Function.update s.server.files (partName path) none) path _
        f'.imageId = none
      rw [Function.update_of_ne hother,Function.update_of_ne (Ne.symm (flow_no_part h hf' path))]
      exact h.idle r' f' hf' hsent'
    · intro name b hcreated
      rcases List.mem_append.mp hcreated with hcreated | hcreated
      · exact hset.created name b hcreated
      · cases List.mem_singleton.mp hcreated
        exact ⟨r,f,hf,hsent,Function.update_self _ _ _,hpath.symm,(hbytes bytes rfl).symm⟩

theorem sound_get (h : Sound s) {imageId : List Char} {server : Server}
    (hs : Images.step s.server (.get imageId) = some server) : Sound { s with server } := by
  obtain ⟨hkept,honce⟩ := step_kept h.kept h.once hs trivial
  cases step_effect hs with
  | dropped => exact sound_set h
  | fails => exact h
  | answers hfile =>
    refine ⟨hkept,honce,h.token,h.type,h.size,h.short,h.apart,h.idle,h.uploads,?_⟩
    intro name b hcreated
    rcases List.mem_append.mp hcreated with hcreated | hcreated
    · exact h.created name b hcreated
    · cases List.mem_singleton.mp hcreated

theorem sound_put (h : Sound s) (hf : s.flows r = some f) (hsent : f.sent = false) :
    Sound ⟨s.server.set r (some ⟨f.imageId,.reading⟩),
      Function.update s.flows r (some { f with sent := true })⟩ := by
  have hflow : ∀ r' f', Function.update s.flows r (some { f with sent := true }) r' = some f' →
      ∃ g, s.flows r' = some g ∧ f' = { g with sent := f'.sent } ∧ (f'.sent = false → f' = g) := by
    intro r' f' hf'
    by_cases hr : r' = r
    · subst hr
      rw [Function.update_self] at hf'
      obtain rfl := Option.some.inj hf'
      exact ⟨f,hf,rfl,nofun⟩
    · rw [Function.update_of_ne hr] at hf'
      exact ⟨f',hf',rfl,fun _ => rfl⟩
  have hother : ∀ r' g, g.sent = true → s.flows r' = some g →
      Function.update s.flows r (some { f with sent := true }) r' = some g := by
    intro r' g hg hsome
    have hr : r' ≠ r := by
      rintro rfl
      obtain rfl := Option.some.inj (hf.symm.trans hsome)
      cases hsent.symm.trans hg
    rw [Function.update_of_ne hr]
    exact hsome
  refine ⟨kept_set h.kept nofun,h.once,?_,?_,?_,?_,?_,?_,?_,?_⟩
  · intro r' f' hf'
    obtain ⟨g,hg,heq,_⟩ := hflow r' f' hf'
    exact heq ▸ h.token r' g hg
  · intro r' f' hf'
    obtain ⟨g,hg,heq,_⟩ := hflow r' f' hf'
    exact heq ▸ h.type r' g hg
  · intro r' f' hf'
    obtain ⟨g,hg,heq,_⟩ := hflow r' f' hf'
    exact heq ▸ h.size r' g hg
  · intro r' f' hf'
    obtain ⟨g,hg,heq,_⟩ := hflow r' f' hf'
    exact heq ▸ h.short r' g hg
  · intro r₁ r₂ f₁ f₂ h₁ h₂ heq
    obtain ⟨g₁,hg₁,heq₁,_⟩ := hflow r₁ f₁ h₁
    obtain ⟨g₂,hg₂,heq₂,_⟩ := hflow r₂ f₂ h₂
    rw [heq₁,heq₂] at heq
    exact h.apart r₁ r₂ g₁ g₂ hg₁ hg₂ heq
  · intro r' f' hf' hsent'
    obtain ⟨g,hg,_,hsame⟩ := hflow r' f' hf'
    obtain rfl := hsame hsent'
    exact h.idle r' f' hg hsent'
  · intro r' u hu
    change Function.update s.server.uploads r _ r' = some u at hu
    by_cases hr : r' = r
    · subst hr
      rw [Function.update_self] at hu
      cases hu
      exact ⟨{ f with sent := true },Function.update_self _ _ _,rfl,rfl,nofun⟩
    · rw [Function.update_of_ne hr] at hu
      obtain ⟨g,hg,hgsent,hrest⟩ := h.uploads r' u hu
      exact ⟨g,hother r' g hgsent hg,hgsent,hrest⟩
  · intro name bytes hcreated
    obtain ⟨r',g,hg,hgsent,hnone,hrest⟩ := h.created name bytes hcreated
    have hr : r' ≠ r := by
      rintro rfl
      obtain rfl := Option.some.inj (hf.symm.trans hg)
      cases hsent.symm.trans hgsent
    exact ⟨r',g,hother r' g hgsent hg,hgsent,(Function.update_of_ne hr _ _).trans hnone,hrest⟩

theorem sound_pick (h : Sound s) (hfree : s.flows r = none) (htoken : IsToken f.token)
    (htype : f.contentType ∈ allowedContentTypes) (hsize : f.file.length ≤ maxImageBytes)
    (hshort : f.imageId.length ≤ 128) (hfile : s.server.files f.imageId = none)
    (hnew : ∀ r' f', r' ≠ r → s.flows r' = some f' → f'.imageId ≠ f.imageId) :
    Sound { s with flows := Function.update s.flows r (some f) } := by
  have hflow : ∀ P : Flow → Prop, P f → (∀ r' f', s.flows r' = some f' → P f') →
      ∀ r' f', Function.update s.flows r (some f) r' = some f' → P f' := by
    intro P hP hold r' f' hf'
    by_cases hr : r' = r
    · rw [hr,Function.update_self] at hf'
      exact Option.some.inj hf' ▸ hP
    · rw [Function.update_of_ne hr] at hf'
      exact hold r' f' hf'
  have hother : ∀ r' g, s.flows r' = some g →
      Function.update s.flows r (some f) r' = some g := by
    intro r' g hg
    have hr : r' ≠ r := by
      rintro rfl
      cases hfree.symm.trans hg
    rw [Function.update_of_ne hr]
    exact hg
  refine ⟨h.kept,h.once,hflow _ htoken h.token,hflow _ htype h.type,hflow _ hsize h.size,
    hflow _ hshort h.short,?_,hflow _ (fun _ => hfile) h.idle,?_,?_⟩
  · intro r₁ r₂ f₁ f₂ h₁ h₂ heq
    change Function.update s.flows r (some f) r₁ = some f₁ at h₁
    change Function.update s.flows r (some f) r₂ = some f₂ at h₂
    by_cases hr₁ : r₁ = r
    · by_cases hr₂ : r₂ = r
      · exact hr₁.trans hr₂.symm
      · rw [hr₁,Function.update_self] at h₁
        rw [Function.update_of_ne hr₂] at h₂
        obtain rfl := Option.some.inj h₁
        exact absurd heq.symm (hnew r₂ f₂ hr₂ h₂)
    · rw [Function.update_of_ne hr₁] at h₁
      by_cases hr₂ : r₂ = r
      · rw [hr₂,Function.update_self] at h₂
        obtain rfl := Option.some.inj h₂
        exact absurd heq (hnew r₁ f₁ hr₁ h₁)
      · rw [Function.update_of_ne hr₂] at h₂
        exact h.apart r₁ r₂ f₁ f₂ h₁ h₂ heq
  · intro r' u hu
    obtain ⟨g,hg,hrest⟩ := h.uploads r' u hu
    exact ⟨g,hother r' g hg,hrest⟩
  · intro name bytes hcreated
    obtain ⟨r',g,hg,hrest⟩ := h.created name bytes hcreated
    exact ⟨r',g,hother r' g hg,hrest⟩

theorem step_sound (h : Sound s) (hs : step apiBaseUrl s a = some t) (hu : Unguessed s a) :
    Sound t := by
  cases a with
  | pick r cookie type file token =>
    simp only [step] at hs
    split at hs
    · cases hs
    · next hfree =>
      split at hs
      · next resp hresp =>
        cases hs
        obtain ⟨htype,hsize,_⟩ := presign_ok hresp
        obtain ⟨htoken,hshort,hfile,hnew⟩ := hu
        refine sound_pick h hfree htoken htype (Int.ofNat_le.mp hsize) hshort hfile ?_
        intro r' f' hr hf' heq
        have huid : f'.uid = resolveUid cookie := uid_of_presigned heq
        exact hnew r' f' hr hf' huid (token_of_presigned (h.token r' f' hf') htoken heq)
      · cases hs
        exact h
  | put r =>
    simp only [step] at hs
    split at hs
    · next f hf =>
      split at hs
      · cases hs
      · next hsent =>
        have hunsent : f.sent = false := by simpa using hsent
        rw [put_step h hf hunsent] at hs
        cases hs
        exact sound_put h hf hunsent
    · cases hs
  | body r =>
    obtain ⟨f,hf,hserve⟩ := Option.bind_eq_some_iff.mp hs
    obtain ⟨server,hserver,rfl⟩ := Option.map_eq_some_iff.mp hserve
    exact sound_body h hf hserver
  | rename r =>
    obtain ⟨server,hserver,rfl⟩ := Option.map_eq_some_iff.mp hs
    exact sound_rename h hserver
  | cancel r =>
    obtain ⟨server,hserver,rfl⟩ := Option.map_eq_some_iff.mp hs
    cases step_effect hserver with
    | dropped => exact sound_set h
  | get imageId =>
    obtain ⟨server,hserver,rfl⟩ := Option.map_eq_some_iff.mp hs
    exact sound_get h hserver

/-! ## What browsers and readers can rely on -/

structure Served (s : Site) : Prop where
  put : ∀ r f, s.flows r = some f → f.sent = false →
    uploadCheck s.server.files f.imageId = .ok f.imageId
  body : ∀ r f path, s.flows r = some f → s.server.Reading r path →
    uploadBody s.server.files path f.file =
      .ok (Function.update s.server.files (partName path) (some f.file))
  rename : ∀ r f path bytes, s.flows r = some f → s.server.Written r path bytes →
    ∃ server, Images.step s.server (.rename r) = some server ∧
      Event.created f.imageId f.file ∈ server.log
  get : ∀ r f, s.flows r = some f → Event.created f.imageId f.file ∈ s.server.log →
    serve s.server.files f.imageId = .ok f.file
  only : ∀ name bytes, Event.created name bytes ∈ s.server.log →
    ∃ r f, s.flows r = some f ∧ f.imageId = name ∧ f.file = bytes
  apart : ∀ r r' f f', s.flows r = some f → s.flows r' = some f' → r ≠ r' →
    f.imageId ≠ f'.imageId

theorem served_of_sound (h : Sound s) : Served s where
  put := fun _ _ hf hsent => put_accepted h hf hsent
  body := by
    intro r f path hf _
    exact if_neg (not_lt.mpr (h.size r f hf))
  rename := by
    intro r f path bytes hf hwritten
    obtain ⟨_,hpath,hbytes⟩ := upload_flow h hwritten hf
    have hpart := h.kept.parts r path bytes hwritten
    have hreplace := congrArg (Option.map fun content => Function.update
      (Function.update s.server.files (partName path) none) path (some content)) hpart
    change replace s.server.files (partName path) path = some _ at hreplace
    have hwritten' : s.server.uploads r = some ⟨path,.written bytes⟩ := hwritten
    have hstep : Images.step s.server (.rename r) = some { s.server.set r none with
        files := Function.update (Function.update s.server.files (partName path) none) path
          (some bytes),
        log := s.server.log++[.created path bytes] } := by
      simp only [Images.step,hwritten',hreplace]
    refine ⟨_,hstep,?_⟩
    rw [← hpath,← hbytes bytes rfl]
    exact List.mem_append_right _ (List.mem_singleton_self _)
  get := by
    intro r f hf hcreated
    have hfile := h.kept.backed f.imageId f.file hcreated
    have hid : isImageId f.imageId = true :=
      (presigned_isImageId_iff (h.token r f hf) (h.type r f hf)).mpr (h.short r f hf)
    simp [serve,imagePath,pathExists,hid,hfile,bind,Except.bind,pure,Except.pure]
  only := by
    intro name bytes hcreated
    obtain ⟨r,f,hf,_,_,hid,hfile⟩ := h.created name bytes hcreated
    exact ⟨r,f,hf,hid,hfile⟩
  apart := fun r r' f f' hf hf' hr heq => hr (h.apart r r' f f' hf hf' heq)

/-- Whatever requests come in between, uploads come through and images stay what they are. -/
theorem uploads_served {files : Files} {actions : List Action}
    (h : Along (step apiBaseUrl) Unguessed (start files) actions) :
    Throughout (step apiBaseUrl) Served (start files) actions := by
  have hall : Throughout (step apiBaseUrl) Sound (start files) actions :=
    throughout_of_along (fun _ _ _ hsound hs hu => step_sound hsound hs hu) (sound_start files) h
  exact throughout_mono (fun _ hsound => served_of_sound hsound) hall

def sixteen (c : Char) : List Char := List.replicate 16 c

theorem sixteen_token {c : Char} (h : (c.isAlphanum || c = '-' || c = '_') = true) :
    IsToken (sixteen c) := by
  refine ⟨rfl,?_⟩
  intro d hd
  obtain ⟨_,rfl⟩ := List.mem_replicate.mp hd
  exact h

/-- Two images of one user on their way at once; both are asked for afterwards. -/
def twoUploads : List Action :=
  [.pick 0 none "image/png" [1] (sixteen 'a'),.pick 1 none "image/png" [2,3] (sixteen 'b'),
    .put 1,.put 0,.body 0,.body 1,.rename 1,.get (presignedId 1 (sixteen 'b') "image/png"),
    .rename 0,.get (presignedId 1 (sixteen 'a') "image/png")]

theorem two_served : Throughout (step []) Served (start fun _ => none) twoUploads ∧
    (exec (step []) (start fun _ => none) twoUploads).map (fun s => s.server.log) =
      some [.created (presignedId 1 (sixteen 'b') "image/png") [2,3],
        .served (presignedId 1 (sixteen 'b') "image/png") [2,3],
        .created (presignedId 1 (sixteen 'a') "image/png") [1],
        .served (presignedId 1 (sixteen 'a') "image/png") [1]] := by
  refine ⟨uploads_served ?_,by decide +kernel⟩
  refine along_cons rfl ⟨sixteen_token rfl,by decide,rfl,?_⟩ ?_
  · rintro r f _ ⟨⟩
  refine along_cons rfl ⟨sixteen_token rfl,by decide,rfl,?_⟩ ?_
  · intro r f hr hf _
    by_cases h0 : r = 0
    · subst h0
      cases hf
      exact (by decide : sixteen 'a' ≠ sixteen 'b')
    · simp [start,Function.update,h0] at hf
  · exact fun _ _ => ⟨trivial,fun _ _ => ⟨trivial,fun _ _ => ⟨trivial,fun _ _ => ⟨trivial,
      fun _ _ => ⟨trivial,fun _ _ => ⟨trivial,fun _ _ => ⟨trivial,fun _ _ =>
        ⟨trivial,trivial⟩⟩⟩⟩⟩⟩⟩⟩

end BlockDocs.PresignedImages
