import Ragent.SourceObjects
import Ragent.Uploads

set_option autoImplicit false

/-!
# Uploads and their objects

An object is put before the row that refers to it is inserted, under a key that begins with its
digest. However requests run side by side and fail, a row's URI leads to bytes with the row's digest,
and a request is answered with a document of its own bytes.
-/
namespace Ragent.UploadedObjects
open Formats GuardedRuns Uploads ObjectStore

section
variable (settings : Settings)

def noteFile (_ : State) (e : Event) (files : List UploadFile) : List UploadFile :=
  match e with
  | .arrive file => files ++ [file]
  | _ => files

def exec : State × List UploadFile → Event → Option (State × List UploadFile) :=
  recorded (Uploads.exec settings) noteFile

def Start (s : State × List UploadFile) : Prop := s = ({}, [])

/-- The object that was put last under a key. -/
def objectAt (s : State) (key : String) : Option Bytes := s.objects.reverse.lookup key

def HasRow (s : State) (file : UploadFile) (documentId : String) : Prop :=
  ∃ row ∈ s.documents, row.id = documentId ∧ row.sha256 = settings.sha256 file.data

/-- What has been done for the upload that a request serves. -/
def Serves (s : State) (file : UploadFile) : Progress → Prop
  | .putObject file' => file' = file
  | .insertDocument file' => file' = file ∧ Uploads.keyOf settings file ∈ s.objects.map (·.1)
  | .selectDocument file' => file' = file ∧ (documentOf settings s file).isSome
  | .ensureRun _ documentId => HasRow settings s file documentId
  | .exchange message _ => HasRow settings s file message.documentId
  | .publish message _ => HasRow settings s file message.documentId
  | .answered answer => HasRow settings s file answer.documentId
  | .refused _ => True
  | .failed _ => True

/-- Objects have the digest their key begins with, rows the digest of their object, and no two rows
    the same. -/
structure Stored (s : State) : Prop where
  objects : ∀ object ∈ s.objects, ∃ extension, object.1 = rawKey (settings.sha256 object.2) extension
  rows : ∀ row ∈ s.documents, row.tenantId = "default" ∧ ∃ (file : UploadFile) (extension : String),
    row.sha256 = settings.sha256 file.data ∧
      row.sourceUri = settings.objectUri (rawKey (settings.sha256 file.data) extension) ∧
        rawKey (settings.sha256 file.data) extension ∈ s.objects.map (·.1)
  digests : (s.documents.map (·.sha256)).Nodup

structure Faithful (s : State × List UploadFile) : Prop where
  stored : Stored settings s.1
  length : s.1.requests.length = s.2.length
  serves : ∀ (i : ℕ) p file, s.1.requests[i]? = some p → s.2[i]? = some file →
    Serves settings s.1 file p

end

variable {settings : Settings} {s t : State} {file : UploadFile} {files : List UploadFile}
  {p : Progress} {id traceId : String} {next : State × Progress}

structure Grows (s t : State) : Prop where
  objects : s.objects <+: t.objects
  documents : s.documents <+: t.documents

theorem HasRow.mono {documentId : String} (h : HasRow settings s file documentId) (hgrows : Grows s t) :
    HasRow settings t file documentId := by
  rcases h with ⟨row, hrow, hids⟩
  exact ⟨row, hgrows.documents.subset hrow, hids⟩

theorem Serves.mono (h : Serves settings s file p) (hgrows : Grows s t) :
    Serves settings t file p := by
  cases p with
  | insertDocument file' =>
    refine ⟨h.1, ?_⟩
    obtain ⟨object, hobject, hkey⟩ := List.mem_map.mp h.2
    exact List.mem_map.mpr ⟨object, hgrows.objects.subset hobject, hkey⟩
  | selectDocument file' =>
    refine ⟨h.1, ?_⟩
    have hsome := h.2
    unfold documentOf at hsome ⊢
    rw [List.find?_isSome] at hsome ⊢
    obtain ⟨row, hrow, hkey⟩ := hsome
    exact ⟨row, hgrows.documents.subset hrow, hkey⟩
  | ensureRun _ _ | exchange _ _ | publish _ _ | answered _ => exact HasRow.mono h hgrows
  | _ => exact h

theorem mem_of_documentOf {row : DocumentRow} (h : documentOf settings s file = some row) :
    row ∈ s.documents ∧ row.sha256 = settings.sha256 file.data := by
  have hkey := List.find?_some h
  rw [decide_eq_true_eq] at hkey
  exact ⟨List.mem_of_find?_eq_some h, hkey.2⟩

theorem Stored.putObject (h : Stored settings s) (file : UploadFile) :
    Stored settings { s with objects := s.objects ++ [(Uploads.keyOf settings file, file.data)] } where
  objects object hobject := by
    rcases List.mem_append.mp hobject with hold | hnew
    · exact h.objects object hold
    · rw [List.mem_singleton.mp hnew]
      exact ⟨_, rfl⟩
  rows row hrow := by
    rcases h.rows row hrow with ⟨htenant, uploaded, extension, hdigest, huri, hkey⟩
    refine ⟨htenant, uploaded, extension, hdigest, huri, ?_⟩
    rw [List.map_append]
    exact List.mem_append_left _ hkey
  digests := h.digests

theorem Stored.insertDocument (h : Stored settings s) (hnone : documentOf settings s file = none)
    (hkey : Uploads.keyOf settings file ∈ s.objects.map (·.1)) (id : String) :
    Stored settings { s with documents := s.documents ++ [rowOf settings file id] } where
  objects := h.objects
  rows row hrow := by
    rcases List.mem_append.mp hrow with hold | hnew
    · exact h.rows row hold
    · rw [List.mem_singleton.mp hnew]
      exact ⟨rfl, file, _, rfl, rfl, hkey⟩
  digests := by
    rw [List.map_append, List.nodup_append]
    refine ⟨h.digests, List.nodup_singleton _, ?_⟩
    intro digest hdigest digest' hdigest' heq
    rw [List.mem_singleton.mp hdigest'] at heq
    obtain ⟨row, hrow, rfl⟩ := List.mem_map.mp hdigest
    have hdiffers := List.find?_eq_none.mp hnone row hrow
    rw [decide_eq_true_eq, not_and] at hdiffers
    exact hdiffers (h.rows row hrow).1 heq

/-- One call adds what it has to add, and serves its upload. -/
theorem advance_serves (hstored : Stored settings s) (hserves : Serves settings s file p)
    (h : advance settings s id traceId p = some next) :
    Grows s next.1 ∧ Stored settings next.1 ∧ Serves settings next.1 file next.2 := by
  have hsame : Grows s s := ⟨List.prefix_refl _, List.prefix_refl _⟩
  cases p with
  | putObject file' =>
    obtain rfl : file' = file := hserves
    obtain rfl := Option.some.inj h
    refine ⟨⟨List.prefix_append _ _, List.prefix_refl _⟩, hstored.putObject file', rfl, ?_⟩
    simp
  | insertDocument file' =>
    obtain ⟨rfl, hkey⟩ : file' = file ∧ _ := hserves
    simp only [advance] at h
    cases hrow : documentOf settings s file' with
    | some row =>
      simp only [hrow] at h
      obtain rfl := Option.some.inj h
      exact ⟨hsame, hstored, rfl, by simp [hrow]⟩
    | none =>
      simp only [hrow, Option.ite_none_left_eq_some] at h
      obtain rfl := Option.some.inj h.2
      refine ⟨⟨List.prefix_refl _, List.prefix_append _ _⟩, hstored.insertDocument hrow hkey id, ?_⟩
      exact ⟨_, List.mem_append_right _ (List.mem_singleton_self _), rfl, rfl⟩
  | selectDocument file' =>
    obtain ⟨rfl, hsome⟩ : file' = file ∧ _ := hserves
    obtain rfl := Option.some.inj h
    obtain ⟨row, hrow⟩ := Option.isSome_iff_exists.mp hsome
    obtain ⟨hmem, hdigest⟩ := mem_of_documentOf hrow
    refine ⟨hsame, hstored, row, hmem, ?_, hdigest⟩
    rw [hrow]
    rfl
  | ensureRun file' documentId =>
    obtain rfl := Option.some.inj h
    exact ⟨⟨hsame.objects, hsame.documents⟩, ⟨hstored.objects, hstored.rows, hstored.digests⟩, hserves⟩
  | exchange message name =>
    obtain rfl := Option.some.inj h
    exact ⟨hsame, hstored, hserves⟩
  | publish message name =>
    obtain rfl := Option.some.inj h
    exact ⟨⟨hsame.objects, hsame.documents⟩, ⟨hstored.objects, hstored.rows, hstored.digests⟩, hserves⟩
  | answered _ | refused _ | failed _ => cases h

theorem Faithful.request {s t : State} {files : List UploadFile} (h : Faithful settings (s, files))
    {i : ℕ} {q : Progress} (hgrows : Grows s t) (hstored : Stored settings t)
    (hq : ∀ file, files[i]? = some file → Serves settings t file q) :
    Faithful settings ({ t with requests := s.requests.set i q }, files) where
  stored := ⟨hstored.objects, hstored.rows, hstored.digests⟩
  length := by
    rw [List.length_set]
    exact h.length
  serves j p file hp hfile := by
    change (s.requests.set i q)[j]? = some p at hp
    rw [List.getElem?_set] at hp
    split_ifs at hp with heq hlt
    · obtain rfl := Option.some.inj hp
      subst heq
      exact hq file hfile
    · exact (h.serves j p file hp hfile).mono ⟨hgrows.objects, hgrows.documents⟩

theorem Faithful.arrive {s : State} {files : List UploadFile} (h : Faithful settings (s, files))
    (file : UploadFile) :
    Faithful settings ({ s with requests := s.requests ++ [receive file] }, files ++ [file]) where
  stored := ⟨h.stored.objects, h.stored.rows, h.stored.digests⟩
  length := by
    rw [List.length_append, List.length_append, h.length]
    rfl
  serves i p file' hp hfile := by
    change (s.requests ++ [receive file])[i]? = some p at hp
    change (files ++ [file])[i]? = some file' at hfile
    have hlength : s.requests.length = files.length := h.length
    rcases Nat.lt_or_ge i s.requests.length with hlt | hge
    · rw [List.getElem?_append_left hlt] at hp
      rw [List.getElem?_append_left (by omega)] at hfile
      exact (h.serves i p file' hp hfile).mono ⟨List.prefix_refl _, List.prefix_refl _⟩
    · rw [List.getElem?_append_right hge] at hp
      rw [List.getElem?_append_right (by omega)] at hfile
      have hp' := List.mem_singleton.mp (List.mem_of_getElem? hp)
      have hfile' := List.mem_singleton.mp (List.mem_of_getElem? hfile)
      rw [hp', hfile']
      unfold receive
      split_ifs
      · trivial
      · trivial
      · rfl

theorem Faithful.step {s t : State × List UploadFile} {e : Event} (h : Faithful settings s)
    (hexec : exec settings s e = some t) : Faithful settings t := by
  rcases s with ⟨s, files⟩
  obtain ⟨s', hs', rfl⟩ := Option.map_eq_some_iff.mp hexec
  have hsame : Grows s s := ⟨List.prefix_refl _, List.prefix_refl _⟩
  cases e with
  | arrive file =>
    obtain rfl := Option.some.inj hs'
    exact h.arrive file
  | call i id traceId =>
    obtain ⟨p, hp, hcall⟩ := Option.bind_eq_some_iff.mp hs'
    obtain ⟨next, hnext, rfl⟩ := Option.map_eq_some_iff.mp hcall
    have hi : i < files.length := by
      rw [← h.length]
      exact (List.getElem?_eq_some_iff.mp hp).1
    obtain ⟨hgrows, hstored, -⟩ := advance_serves h.stored
      (h.serves i p _ hp (List.getElem?_eq_getElem hi)) hnext
    apply h.request hgrows hstored
    intro file hfile
    exact (advance_serves h.stored (h.serves i p file hp hfile) hnext).2.2
  | fail i id traceId effect =>
    obtain ⟨p, hp, hcall⟩ := Option.bind_eq_some_iff.mp hs'
    obtain ⟨next, hnext, rfl⟩ := Option.map_eq_some_iff.mp hcall
    have hi : i < files.length := by
      rw [← h.length]
      exact (List.getElem?_eq_some_iff.mp hp).1
    obtain ⟨hgrows, hstored, -⟩ := advance_serves h.stored
      (h.serves i p _ hp (List.getElem?_eq_getElem hi)) hnext
    cases effect with
    | true => exact h.request hgrows hstored fun _ _ => trivial
    | false => exact h.request (q := .failed p.owed) hsame h.stored fun _ _ => trivial

theorem faithful_of_reachable {s : State × List UploadFile}
    (h : Reachable Start (exec settings) (fun _ _ => True) s) : Faithful settings s := by
  apply h.invariant
  · intro s hs
    rw [hs]
    exact ⟨⟨nofun, nofun, List.nodup_nil⟩, rfl, by simp⟩
  · intro s t e hs _ hexec
    exact hs.step hexec

def worldOf (s : State) : SourceObjects.World where
  documents documentId := (s.documents.find? (·.id = documentId)).map fun row =>
    { sourceUri := row.sourceUri, originalName := row.originalName }
  objects := objectAt s

theorem objectAt_of_mem {key : String} (h : key ∈ s.objects.map (·.1)) :
    ∃ data, objectAt s key = some data ∧ (key, data) ∈ s.objects := by
  have hsome : (objectAt s key).isSome := by
    rw [objectAt, List.lookup_isSome_iff]
    simpa using h
  obtain ⟨data, hdata⟩ := Option.isSome_iff_exists.mp hsome
  obtain ⟨before, after, heq, -⟩ := List.lookup_eq_some_iff.mp hdata
  refine ⟨data, hdata, List.mem_reverse.mp ?_⟩
  rw [heq]
  simp

theorem digest_of_objectAt (h : Stored settings s)
    (hlength : ∀ data data', (settings.sha256 data).toList.length =
      (settings.sha256 data').toList.length)
    {extension : String} (hkey : rawKey (settings.sha256 file.data) extension ∈ s.objects.map (·.1)) :
    ∃ data, objectAt s (rawKey (settings.sha256 file.data) extension) = some data ∧
      settings.sha256 data = settings.sha256 file.data := by
  obtain ⟨data, hdata, hmem⟩ := objectAt_of_mem hkey
  obtain ⟨extension', heq⟩ := h.objects _ hmem
  exact ⟨data, hdata, (digest_of_rawKey heq (hlength file.data data)).symm⟩

variable {bucket : String}

theorem uploaded_worldOf (h : Stored settings s) (hobjectUri : settings.objectUri = objectUri bucket)
    {sources : SourceObjects.Settings} (hbucket : sources.bucket = bucket) :
    SourceObjects.Uploaded sources (worldOf s) where
  sources d row hrow := by
    obtain ⟨row', hfind, rfl⟩ := Option.map_eq_some_iff.mp hrow
    obtain ⟨-, uploaded, extension, -, huri, hkey⟩ := h.rows row' (List.mem_of_find?_eq_some hfind)
    obtain ⟨data, hdata, -⟩ := objectAt_of_mem hkey
    refine ⟨rfl, settings.sha256 uploaded.data, extension, ?_, ?_⟩
    · rw [hbucket, ← hobjectUri]
      exact huri
    · change (objectAt s _).isSome = true
      rw [hdata]
      rfl
  unconverted d := by
    change objectAt s (convertedKey d) = none
    rw [objectAt, List.lookup_eq_none_iff]
    intro object hobject
    obtain ⟨extension, hkey⟩ := h.objects object (List.mem_reverse.mp hobject)
    rw [hkey, bne_iff_ne]
    exact (rawKey_ne_convertedKey _ _ d).symm

/-- Requests side by side that may fail at any call leave rows of distinct digests, each with bytes of
    its digest behind its URI; a request is answered with the row of its own bytes; and the stages find
    every document with its object, and nothing converted yet. -/
theorem uploads_are_stored_under_their_digest (hobjectUri : settings.objectUri = objectUri bucket)
    (hlength : ∀ data data', (settings.sha256 data).toList.length =
      (settings.sha256 data').toList.length)
    {s : State × List UploadFile} (h : Reachable Start (exec settings) (fun _ _ => True) s) :
    (s.1.documents.map (·.sha256)).Nodup ∧
      (∀ row ∈ s.1.documents, ∃ data,
        objectAt s.1 (ObjectStore.keyOf bucket row.sourceUri) = some data ∧
          settings.sha256 data = row.sha256) ∧
      (∀ (i : ℕ) answer file, s.1.requests[i]? = some (.answered answer) → s.2[i]? = some file →
        HasRow settings s.1 file answer.documentId) ∧
      ∀ sources : SourceObjects.Settings, sources.bucket = bucket →
        SourceObjects.Uploaded sources (worldOf s.1) := by
  have hfaithful := faithful_of_reachable h
  refine ⟨hfaithful.stored.digests, fun row hrow => ?_, ?_, ?_⟩
  · obtain ⟨-, uploaded, extension, hdigest, huri, hkey⟩ := hfaithful.stored.rows row hrow
    rw [huri, hobjectUri, keyOf_objectUri, hdigest]
    exact digest_of_objectAt hfaithful.stored hlength hkey
  · intro i answer file hp hfile
    exact hfaithful.serves i _ file hp hfile
  · exact fun sources hbucket => uploaded_worldOf hfaithful.stored hobjectUri hbucket

def hiAgain : UploadFile where
  data := bytes "hi"
  filename := some "hi.md"

def hiBucket : Settings where
  sha256 := hiSettings.sha256
  objectUri := objectUri "ragent"
  pipelineVersion := "v1"

theorem two_names_have_one_row :
    ∃ s, Reachable Start (exec hiBucket) (fun _ _ => True) s ∧
      s.1.objects.length = 2 ∧ s.1.documents.length = 1 ∧
      s.1.requests[0]? = some (.answered (.duplicate "d1")) ∧ HasRow hiBucket s.1 hi "d1" := by
  obtain ⟨s, hrun, hobjects, hdocuments, hanswer, hfile⟩ : ∃ s, run (exec hiBucket) ({}, [])
      [.arrive hi, .arrive hiAgain, .call 0 "" "", .call 1 "" "", .call 1 "d1" "",
        .call 0 "d2" "", .call 0 "" ""] = some s ∧
      s.1.objects.length = 2 ∧ s.1.documents.length = 1 ∧
      s.1.requests[0]? = some (.answered (.duplicate "d1")) ∧ s.2[0]? = some hi :=
    ⟨_, rfl, rfl, rfl, rfl, rfl⟩
  have hreach : Reachable Start (exec hiBucket) (fun _ _ => True) s :=
    reachable_of_run (.start rfl) (fun _ _ _ => trivial) hrun
  obtain ⟨-, -, hanswers, -⟩ :=
    uploads_are_stored_under_their_digest (rfl : hiBucket.objectUri = objectUri "ragent")
      (fun _ _ => rfl) hreach
  exact ⟨s, hreach, hobjects, hdocuments, hanswer, hanswers 0 _ hi hanswer hfile⟩

end Ragent.UploadedObjects
