import Ragent.Consumer
import Ragent.GuardedRuns
import Ragent.Keyed

set_option autoImplicit false

/-!
# Uploads

`upload` of `ragent/api/main.py` with `create_document` and `ensure_run` of `ragent/db/repo.py`.
Requests run side by side, one call at a time; a call may raise before or after it took effect.
-/
namespace Ragent.Uploads
open Formats Stages Runner GuardedRuns

structure UploadFile where
  data : Bytes
  filename : Option String := none
  contentType : Option String := none

def MAX_UPLOAD_BYTES : ℕ := 100 * 1024 * 1024

structure DocumentRow where
  id : String
  tenantId : String
  sha256 : String
  sourceUri : String
  originalName : String
  mimeType : String
  byteSize : ℕ
  deriving DecidableEq

structure RunRow where
  id : String
  documentId : String
  pipelineVersion : String
  deriving DecidableEq

inductive Answer
  | queued (documentId name : String)
  | duplicate (documentId : String)
  deriving DecidableEq

def Answer.documentId : Answer → String
  | .queued documentId _ => documentId
  | .duplicate documentId => documentId

/-- The call a request is about to make, or how it ended. -/
inductive Progress
  | putObject (file : UploadFile)
  /-- The `INSERT` of `create_document`. -/
  | insertDocument (file : UploadFile)
  /-- The `SELECT` behind a conflict. -/
  | selectDocument (file : UploadFile)
  | ensureRun (file : UploadFile) (documentId : String)
  | exchange (message : StageMessage) (name : String)
  | publish (message : StageMessage) (name : String)
  | answered (answer : Answer)
  | refused (status : ℕ)
  /-- An exception, with the row that the request inserted and published no message for. -/
  | failed (row : Option String)

/-- The row a request has inserted and still has to publish a message for. -/
def Progress.owed : Progress → Option String
  | .ensureRun _ documentId => some documentId
  | .exchange message _ => some message.documentId
  | .publish message _ => some message.documentId
  | .failed row => row
  | _ => none

structure State where
  objects : List (String × Bytes) := []
  documents : List DocumentRow := []
  runs : List RunRow := []
  /-- The messages with their routing keys. -/
  published : List (String × StageMessage) := []
  requests : List Progress := []

inductive Event
  | arrive (file : UploadFile)
  /-- The next call of a request returns, with what `gen_random_uuid` and `uuid4` draw. -/
  | call (i : ℕ) (id traceId : String)
  /-- It raises, before or after it took effect. -/
  | fail (i : ℕ) (id traceId : String) (effect : Bool)

structure Settings where
  sha256 : Bytes → String
  objectUri : String → String
  pipelineVersion : String

/-- `name.rsplit('.', 1)[-1]`, if there is a dot. -/
def extension (name : String) : Option String :=
  if '.' ∈ name.toList then some (String.ofList (name.toList.rtakeWhile (· ≠ '.'))) else none

/-- `file.filename or "upload"` -/
def nameOf (file : UploadFile) : String :=
  match file.filename with
  | some name => if name = "" then "upload" else name
  | none => "upload"

/-- `file.content_type or "application/octet-stream"` -/
def contentTypeOf (file : UploadFile) : String :=
  match file.contentType with
  | some contentType => if contentType = "" then "application/octet-stream" else contentType
  | none => "application/octet-stream"

/-- `STAGES_BY_NAME["detect"].routing_key` -/
def detectKey : String := ((stageByName PIPELINE "detect").map (·.routingKey)).getD ""

def receive (file : UploadFile) : Progress :=
  if file.data = [] then .refused 400
  else if MAX_UPLOAD_BYTES < file.data.length then .refused 413
  else .putObject file

section
variable (settings : Settings)

def keyOf (file : UploadFile) : String :=
  "raw/" ++ settings.sha256 file.data ++ ((extension (nameOf file)).elim "" ("." ++ ·))

def documentOf (s : State) (file : UploadFile) : Option DocumentRow :=
  s.documents.find? fun row => row.tenantId = "default" ∧ row.sha256 = settings.sha256 file.data

def rowOf (file : UploadFile) (id : String) : DocumentRow where
  id := id
  tenantId := "default"
  sha256 := settings.sha256 file.data
  sourceUri := settings.objectUri (keyOf settings file)
  originalName := nameOf file
  mimeType := contentTypeOf file
  byteSize := file.data.length

def detectMessage (documentId runId traceId : String) : StageMessage :=
  Consumer.uploadMessage documentId runId settings.pipelineVersion traceId

/-- `ensure_run`, with the id it returns. -/
def ensureRun (runs : List RunRow) (documentId id : String) : List RunRow × String :=
  match runs.find? fun r => r.documentId = documentId ∧ r.pipelineVersion = settings.pipelineVersion with
  | some r => (runs, r.id)
  | none => (runs ++ [⟨id, documentId, settings.pipelineVersion⟩], id)

/-- The effect of the next call of a request, and how the request goes on. An id is drawn once. -/
def advance (s : State) (id traceId : String) : Progress → Option (State × Progress)
  | .putObject file =>
    some ({ s with objects := s.objects ++ [(keyOf settings file, file.data)] },
      .insertDocument file)
  | .insertDocument file =>
    match documentOf settings s file with
    | some _ => some (s, .selectDocument file)
    | none =>
      if id ∈ s.documents.map (·.id) then none
      else some ({ s with documents := s.documents ++ [rowOf settings file id] }, .ensureRun file id)
  | .selectDocument file =>
    some (s, .answered (.duplicate (((documentOf settings s file).map (·.id)).getD "None")))
  | .ensureRun file documentId =>
    let run := ensureRun settings s.runs documentId id
    some ({ s with runs := run.1 },
      .exchange (detectMessage settings documentId run.2 traceId) (nameOf file))
  | .exchange message name => some (s, .publish message name)
  | .publish message name =>
    some ({ s with published := s.published ++ [(detectKey, message)] },
      .answered (.queued message.documentId name))
  | _ => none

def exec (s : State) : Event → Option State
  | .arrive file => some { s with requests := s.requests ++ [receive file] }
  | .call i id traceId =>
    s.requests[i]?.bind fun p => (advance settings s id traceId p).map fun next =>
      { next.1 with requests := s.requests.set i next.2 }
  | .fail i id traceId effect =>
    s.requests[i]?.bind fun p => (advance settings s id traceId p).map fun next =>
      if effect then { next.1 with requests := s.requests.set i (.failed next.2.owed) }
      else { s with requests := s.requests.set i (.failed p.owed) }

def Published (s : State) (documentId : String) : Prop :=
  ∃ p ∈ s.published, p.2.documentId = documentId ∧ p.2.stage = "detect"

/-- Every request that was answered has its document's first message published. -/
def AllDriven (s : State) : Prop :=
  ∀ answer, .answered answer ∈ s.requests → Published s answer.documentId

/-- No request is answered as a duplicate of a row whose own request has yet to publish its message,
    or has failed to. -/
def Unhurried (s : State) : Event → Prop
  | .call i _ _ => ∀ file row, s.requests[i]? = some (.selectDocument file) →
      documentOf settings s file = some row → row.id ∉ s.requests.filterMap Progress.owed
  | _ => True

variable {settings} {s t : State} {id traceId : String}

def accounts (s : State) (requests : List Progress) : List String :=
  s.published.map (·.2.documentId) ++ requests.filterMap Progress.owed

def Progress.announces : Progress → Prop
  | .exchange message _ => message.stage = "detect"
  | .publish message _ => message.stage = "detect"
  | _ => True

def Progress.finds (settings : Settings) (s : State) : Progress → Prop
  | .selectDocument file => (documentOf settings s file).isSome
  | _ => True

structure Valid (settings : Settings) (s : State) : Prop where
  balanced : (accounts s s.requests).Perm (s.documents.map (·.id))
  nodup : (s.documents.map (·.id)).Nodup
  detects : ∀ p ∈ s.published, p.2.stage = "detect"
  announces : ∀ p ∈ s.requests, p.announces
  finds : ∀ p ∈ s.requests, p.finds settings s

def Moved (settings : Settings) (s : State) (id : String) (p : Progress) (t : State)
    (owed : Option String) : Prop :=
  (t.documents = s.documents ∧ t.published = s.published ∧ owed = p.owed) ∨
    (∃ file, p.owed = none ∧ id ∉ s.documents.map (·.id) ∧
      t.documents = s.documents ++ [rowOf settings file id] ∧ t.published = s.published ∧
      owed = some id) ∨
    ∃ message name, p = .publish message name ∧ t.documents = s.documents ∧
      t.published = s.published ++ [(detectKey, message)] ∧ owed = none

theorem moved_of_advance {p : Progress} {next : State × Progress}
    (h : advance settings s id traceId p = some next) :
    Moved settings s id p next.1 next.2.owed := by
  cases p with
  | insertDocument file =>
    simp only [advance] at h
    cases hrow : documentOf settings s file with
    | some row =>
      simp only [hrow] at h
      obtain rfl := Option.some.inj h
      exact .inl ⟨rfl, rfl, rfl⟩
    | none =>
      simp only [hrow] at h
      by_cases hid : id ∈ s.documents.map (·.id)
      · rw [if_pos hid] at h
        cases h
      · rw [if_neg hid] at h
        obtain rfl := Option.some.inj h
        exact .inr (.inl ⟨file, rfl, hid, rfl, rfl, rfl⟩)
  | publish message name =>
    obtain rfl := Option.some.inj h
    exact .inr (.inr ⟨message, name, rfl, rfl, rfl, rfl⟩)
  | putObject _ | selectDocument _ | ensureRun _ _ | exchange _ _ =>
    obtain rfl := Option.some.inj h
    exact .inl ⟨rfl, rfl, rfl⟩
  | answered _ | refused _ | failed _ => cases h

namespace Moved
variable {p : Progress} {owed : Option String}

theorem documents_prefix (h : Moved settings s id p t owed) : s.documents <+: t.documents := by
  obtain ⟨hdocuments, -, -⟩ | ⟨file, -, -, hdocuments, -, -⟩ | ⟨message, name, -, hdocuments, -, -⟩ := h
  · rw [hdocuments]
  · rw [hdocuments]
    exact List.prefix_append _ _
  · rw [hdocuments]

theorem documentOf_isSome (h : Moved settings s id p t owed) {file : UploadFile}
    (hrow : (documentOf settings s file).isSome) : (documentOf settings t file).isSome := by
  unfold documentOf at hrow ⊢
  rw [List.find?_isSome] at hrow ⊢
  obtain ⟨row, hmem, hkey⟩ := hrow
  exact ⟨row, h.documents_prefix.subset hmem, hkey⟩

theorem nodup (h : Moved settings s id p t owed) (hnodup : (s.documents.map (·.id)).Nodup) :
    (t.documents.map (·.id)).Nodup := by
  obtain ⟨hdocuments, -, -⟩ | ⟨file, -, hid, hdocuments, -, -⟩ | ⟨message, name, -, hdocuments, -, -⟩ := h
  · rwa [hdocuments]
  · rw [hdocuments]
    exact Keyed.nodup_concat hnodup hid
  · rwa [hdocuments]

theorem balanced (h : Moved settings s id p t owed) {others : List String}
    (hbalanced : (s.published.map (·.2.documentId) ++ (p.owed.toList ++ others)).Perm
      (s.documents.map (·.id))) :
    (t.published.map (·.2.documentId) ++ (owed.toList ++ others)).Perm
      (t.documents.map (·.id)) := by
  obtain ⟨hdocuments, hpublished, rfl⟩ | ⟨file, hnone, -, hdocuments, hpublished, rfl⟩ |
    ⟨message, name, rfl, hdocuments, hpublished, rfl⟩ := h
  · rwa [hdocuments, hpublished]
  · rw [hnone] at hbalanced
    rw [hdocuments, hpublished, List.map_append]
    have howed : (s.published.map (·.2.documentId) ++ id :: others).Perm
        (id :: s.documents.map (·.id)) := List.perm_middle.trans (hbalanced.cons id)
    exact howed.trans (List.perm_append_singleton id _).symm
  · rw [hdocuments, hpublished, List.map_append, List.append_assoc]
    exact hbalanced

theorem detects (h : Moved settings s id p t owed) (hannounces : p.announces)
    (hdetects : ∀ q ∈ s.published, q.2.stage = "detect") :
    ∀ q ∈ t.published, q.2.stage = "detect" := by
  obtain ⟨-, hpublished, -⟩ | ⟨file, -, -, -, hpublished, -⟩ | ⟨message, name, rfl, -, hpublished, -⟩ := h
  · rwa [hpublished]
  · rwa [hpublished]
  · rw [hpublished]
    intro q hq
    obtain hq | hq := List.mem_append.mp hq
    · exact hdetects q hq
    · obtain rfl := List.mem_singleton.mp hq
      exact hannounces

end Moved

theorem split_at {requests : List Progress} {i : ℕ} {p : Progress} (h : requests[i]? = some p) :
    ∃ before after, requests = before ++ p :: after ∧
      ∀ q, requests.set i q = before ++ q :: after := by
  obtain ⟨hi, hp⟩ := List.getElem?_eq_some_iff.mp h
  refine ⟨requests.take i, requests.drop (i + 1), ?_, fun q => ?_⟩
  · rw [← hp, List.getElem_cons_drop, List.take_append_drop]
  · rw [List.set_eq_take_append_cons_drop, if_pos hi]

theorem filterMap_owed_cons (p : Progress) (requests : List Progress) :
    (p :: requests).filterMap Progress.owed = p.owed.toList ++ requests.filterMap Progress.owed := by
  rw [List.filterMap_cons]
  cases p.owed <;> rfl

theorem accounts_perm (s : State) (before after : List Progress) (p : Progress) :
    (accounts s (before ++ p :: after)).Perm
      (s.published.map (·.2.documentId) ++
        (p.owed.toList ++ (before ++ after).filterMap Progress.owed)) := by
  unfold accounts
  apply List.Perm.append_left
  rw [← filterMap_owed_cons]
  exact List.perm_middle.filterMap _

theorem Valid.moved (hvalid : Valid settings s) {i : ℕ} {p q : Progress}
    (hp : s.requests[i]? = some p) (hmoved : Moved settings s id p t q.owed) (hannounces : q.announces)
    (hfinds : q.finds settings t) : Valid settings { t with requests := s.requests.set i q } := by
  obtain ⟨before, after, hrequests, hset⟩ := split_at hp
  have hbalanced := hvalid.balanced
  rw [hrequests] at hbalanced
  have hother : ∀ r ∈ s.requests.set i q, r ∈ s.requests ∨ r = q :=
    fun r hr => List.mem_or_eq_of_mem_set hr
  constructor
  · change (accounts t (s.requests.set i q)).Perm (t.documents.map (·.id))
    rw [hset]
    exact (accounts_perm t before after q).trans
      (hmoved.balanced ((accounts_perm s before after p).symm.trans hbalanced))
  · exact hmoved.nodup hvalid.nodup
  · exact hmoved.detects (hvalid.announces p (List.mem_of_getElem? hp)) hvalid.detects
  · intro r hr
    obtain hr | rfl := hother r hr
    · exact hvalid.announces r hr
    · exact hannounces
  · intro r hr
    obtain hr | rfl := hother r hr
    · have hfound := hvalid.finds r hr
      cases r with
      | selectDocument file => exact hmoved.documentOf_isSome hfound
      | _ => trivial
    · cases r with
      | selectDocument file => exact hfinds
      | _ => trivial

theorem advance_next {p : Progress} {next : State × Progress}
    (h : advance settings s id traceId p = some next) (hannounces : p.announces) :
    next.2.announces ∧ next.2.finds settings next.1 := by
  cases p with
  | insertDocument file =>
    simp only [advance] at h
    cases hrow : documentOf settings s file with
    | some row =>
      simp only [hrow] at h
      obtain rfl := Option.some.inj h
      exact ⟨trivial, by simp [Progress.finds, hrow]⟩
    | none =>
      simp only [hrow] at h
      by_cases hid : id ∈ s.documents.map (·.id)
      · rw [if_pos hid] at h
        cases h
      · rw [if_neg hid] at h
        obtain rfl := Option.some.inj h
        exact ⟨trivial, trivial⟩
  | ensureRun file documentId =>
    obtain rfl := Option.some.inj h
    exact ⟨rfl, trivial⟩
  | exchange message name =>
    obtain rfl := Option.some.inj h
    exact ⟨hannounces, trivial⟩
  | putObject _ | selectDocument _ | publish _ _ =>
    obtain rfl := Option.some.inj h
    exact ⟨trivial, trivial⟩
  | answered _ | refused _ | failed _ => cases h

theorem exec_cases {e : Event} (h : exec settings s e = some t) :
    (∃ file, t = { s with requests := s.requests ++ [receive file] }) ∨
      ∃ i p, s.requests[i]? = some p ∧
        ((∃ id traceId next, e = .call i id traceId ∧
            advance settings s id traceId p = some next ∧
            t = { next.1 with requests := s.requests.set i next.2 }) ∨
          (∃ id traceId next, advance settings s id traceId p = some next ∧
            t = { next.1 with requests := s.requests.set i (.failed next.2.owed) }) ∨
          t = { s with requests := s.requests.set i (.failed p.owed) }) := by
  cases e with
  | arrive file => exact .inl ⟨file, (Option.some.inj h).symm⟩
  | call i id traceId =>
    obtain ⟨p, hp, h⟩ := Option.bind_eq_some_iff.mp h
    obtain ⟨next, hnext, rfl⟩ := Option.map_eq_some_iff.mp h
    exact .inr ⟨i, p, hp, .inl ⟨id, traceId, next, rfl, hnext, rfl⟩⟩
  | fail i id traceId effect =>
    obtain ⟨p, hp, h⟩ := Option.bind_eq_some_iff.mp h
    obtain ⟨next, hnext, rfl⟩ := Option.map_eq_some_iff.mp h
    cases effect with
    | true => exact .inr ⟨i, p, hp, .inr (.inl ⟨id, traceId, next, hnext, rfl⟩)⟩
    | false => exact .inr ⟨i, p, hp, .inr (.inr rfl)⟩

theorem receive_cases (settings : Settings) (s : State) (file : UploadFile) :
    (receive file).owed = none ∧ (receive file).announces ∧ (receive file).finds settings s ∧
      ∀ answer, receive file ≠ .answered answer := by
  unfold receive
  split_ifs
  · exact ⟨rfl, trivial, trivial, fun answer h => by cases h⟩
  · exact ⟨rfl, trivial, trivial, fun answer h => by cases h⟩
  · exact ⟨rfl, trivial, trivial, fun answer h => by cases h⟩

theorem accounts_concat (s : State) (requests : List Progress) {p : Progress} (h : p.owed = none) :
    accounts s (requests ++ [p]) = accounts s requests := by
  have hnone : [p].filterMap Progress.owed = [] := by
    rw [filterMap_owed_cons, h]
    rfl
  rw [accounts, List.filterMap_append, hnone, List.append_nil]
  rfl

theorem Valid.arrive (hvalid : Valid settings s) (file : UploadFile) :
    Valid settings { s with requests := s.requests ++ [receive file] } := by
  obtain ⟨howed, hannounces, hfinds, -⟩ := receive_cases settings s file
  have hother : ∀ r ∈ s.requests ++ [receive file], r ∈ s.requests ∨ r = receive file := by
    intro r hr
    simpa using hr
  constructor
  · have hsame := accounts_concat s s.requests howed
    change (accounts s (s.requests ++ [receive file])).Perm (s.documents.map (·.id))
    rw [hsame]
    exact hvalid.balanced
  · exact hvalid.nodup
  · exact hvalid.detects
  · intro r hr
    obtain hr | rfl := hother r hr
    · exact hvalid.announces r hr
    · exact hannounces
  · intro r hr
    obtain hr | rfl := hother r hr
    · exact hvalid.finds r hr
    · exact hfinds

theorem Valid.step {e : Event} (hvalid : Valid settings s) (h : exec settings s e = some t) :
    Valid settings t := by
  obtain ⟨file, rfl⟩ | ⟨i, p, hp, ⟨id, traceId, next, -, hnext, rfl⟩ | ⟨id, traceId, next, hnext, rfl⟩ |
    rfl⟩ := exec_cases h
  · exact hvalid.arrive file
  · obtain ⟨hannounces, hfinds⟩ := advance_next hnext (hvalid.announces p (List.mem_of_getElem? hp))
    exact hvalid.moved hp (moved_of_advance hnext) hannounces hfinds
  · exact hvalid.moved hp (q := .failed next.2.owed) (moved_of_advance hnext) trivial trivial
  · have hidle : Moved settings s "" p s p.owed := .inl ⟨rfl, rfl, rfl⟩
    exact hvalid.moved hp (q := .failed p.owed) hidle trivial trivial

theorem published_iff (hvalid : Valid settings s) {documentId : String} :
    Published s documentId ↔ documentId ∈ s.published.map (·.2.documentId) := by
  rw [List.mem_map]
  constructor
  · intro h
    obtain ⟨q, hq, hid, -⟩ := h
    exact ⟨q, hq, hid⟩
  · intro h
    obtain ⟨q, hq, hid⟩ := h
    exact ⟨q, hq, hid, hvalid.detects q hq⟩

/-- A row has its message published exactly if no request owes it. -/
theorem published_iff_not_owed (hvalid : Valid settings s) {row : DocumentRow}
    (hrow : row ∈ s.documents) :
    Published s row.id ↔ row.id ∉ s.requests.filterMap Progress.owed := by
  have hmem : row.id ∈ accounts s s.requests :=
    hvalid.balanced.symm.subset (List.mem_map_of_mem hrow)
  have hnodup := hvalid.balanced.nodup_iff.mpr hvalid.nodup
  rw [published_iff hvalid]
  unfold accounts at hmem hnodup
  constructor
  · intro hpublished howed
    exact List.disjoint_of_nodup_append hnodup hpublished howed
  · intro howed
    exact (List.mem_append.mp hmem).resolve_right howed

theorem Moved.published_mono {p : Progress} {owed : Option String}
    (h : Moved settings s id p t owed) {documentId : String} (hs : Published s documentId) :
    Published t documentId := by
  obtain ⟨q, hq, hfacts⟩ := hs
  refine ⟨q, ?_, hfacts⟩
  obtain ⟨-, hpublished, -⟩ | ⟨file, -, -, -, hpublished, -⟩ | ⟨message, name, -, -, hpublished, -⟩ := h
  · rwa [hpublished]
  · rwa [hpublished]
  · rw [hpublished]
    exact List.mem_append_left _ hq

theorem published_of_answered {p : Progress} {next : State × Progress} {answer : Answer}
    (hvalid : Valid settings s) (hp : p ∈ s.requests)
    (hnext : advance settings s id traceId p = some next) (hanswer : next.2 = .answered answer)
    (hrow : ∀ file row, p = .selectDocument file → documentOf settings s file = some row →
      row.id ∉ s.requests.filterMap Progress.owed) : Published next.1 answer.documentId := by
  cases p with
  | selectDocument file =>
    obtain rfl := Option.some.inj hnext
    obtain rfl := Progress.answered.inj hanswer
    obtain ⟨row, hfound⟩ := Option.isSome_iff_exists.mp (hvalid.finds _ hp)
    have hid : (Answer.duplicate (((documentOf settings s file).map (·.id)).getD "None")).documentId =
        row.id := by rw [hfound]; rfl
    rw [hid]
    exact (published_iff_not_owed hvalid (List.mem_of_find?_eq_some hfound)).mpr
      (hrow file row rfl hfound)
  | publish message name =>
    obtain rfl := Option.some.inj hnext
    obtain rfl := Progress.answered.inj hanswer
    exact ⟨_, List.mem_append_right _ List.mem_cons_self, rfl, hvalid.announces _ hp⟩
  | insertDocument file =>
    simp only [advance] at hnext
    split at hnext
    · obtain rfl := Option.some.inj hnext
      cases hanswer
    · rw [Option.ite_none_left_eq_some] at hnext
      obtain rfl := Option.some.inj hnext.2
      cases hanswer
  | putObject _ | ensureRun _ _ | exchange _ _ =>
    obtain rfl := Option.some.inj hnext
    cases hanswer
  | answered _ | refused _ | failed _ => cases hnext

theorem AllDriven.step {e : Event} (hvalid : Valid settings s) (hdriven : AllDriven s)
    (hok : Unhurried settings s e) (h : exec settings s e = some t) : AllDriven t := by
  intro answer hanswer
  obtain ⟨file, rfl⟩ | ⟨i, p, hp, ⟨id, traceId, next, rfl, hnext, rfl⟩ | ⟨id, traceId, next, hnext, rfl⟩ |
    rfl⟩ := exec_cases h
  · obtain ⟨-, -, -, hunanswered⟩ := receive_cases settings s file
    obtain hold | hnew := List.mem_append.mp hanswer
    · exact hdriven answer hold
    · exact absurd (List.mem_singleton.mp hnew).symm (hunanswered answer)
  · obtain hold | hnew := List.mem_or_eq_of_mem_set hanswer
    · exact (moved_of_advance hnext).published_mono (hdriven answer hold)
    · apply published_of_answered hvalid (List.mem_of_getElem? hp) hnext hnew.symm
      intro file row hselect
      exact hok file row (hselect ▸ hp)
  · obtain hold | hnew := List.mem_or_eq_of_mem_set hanswer
    · exact (moved_of_advance hnext).published_mono (hdriven answer hold)
    · cases hnew
  · obtain hold | hnew := List.mem_or_eq_of_mem_set hanswer
    · exact hdriven answer hold
    · cases hnew

theorem not_allDriven_step {e : Event} (hvalid : Valid settings s) (hok : ¬ Unhurried settings s e)
    (h : exec settings s e = some t) : ¬ AllDriven t := by
  intro hdriven
  cases e with
  | call i id traceId =>
    simp only [Unhurried, not_forall, not_not] at hok
    obtain ⟨file, row, hp, hrow, howed⟩ := hok
    obtain ⟨p, hp', h⟩ := Option.bind_eq_some_iff.mp h
    obtain rfl := Option.some.inj (hp.symm.trans hp')
    obtain ⟨next, hnext, rfl⟩ := Option.map_eq_some_iff.mp h
    obtain rfl := Option.some.inj hnext
    have hlt := (List.getElem?_eq_some_iff.mp hp).1
    have hanswer := hdriven _ (List.mem_set hlt _)
    rw [hrow] at hanswer
    exact (published_iff_not_owed hvalid (List.mem_of_find?_eq_some hrow)).mp hanswer howed
  | arrive file => exact hok trivial
  | fail i id traceId effect => exact hok trivial

def Fresh (s : State) : Prop := s = {}

theorem valid_of_reachable {ok : State → Event → Prop}
    (h : Reachable Fresh (exec settings) ok s) : Valid settings s := by
  apply h.invariant
  · intro s hs
    subst hs
    constructor
    · exact List.Perm.refl _
    · exact List.nodup_nil
    · intro q hq
      cases hq
    · intro p hp
      cases hp
    · intro p hp
      cases hp
  · intro s t e hvalid _ hexec
    exact hvalid.step hexec

/-- Runs in which no request is answered for another's unfinished row answer no upload in vain, and
    the first that does break the rule breaks the promise. -/
theorem answered_uploads_are_driven (settings : Settings) :
    (∀ s, Reachable Fresh (exec settings) (Unhurried settings) s → AllDriven s) ∧
      ∀ s t e, Reachable Fresh (exec settings) (fun _ _ => True) s → exec settings s e = some t →
        ¬ Unhurried settings s e → ¬ AllDriven t := by
  constructor
  · intro s h
    have hboth : Valid settings s ∧ AllDriven s := by
      apply h.invariant
      · intro s hs
        have hstart : Reachable Fresh (exec settings) (Unhurried settings) s := .start hs
        refine ⟨valid_of_reachable hstart, ?_⟩
        subst hs
        intro answer hanswer
        cases hanswer
      · intro s t e hs hok hexec
        exact ⟨hs.1.step hexec, hs.2.step hs.1 hok hexec⟩
    exact hboth.2
  · intro s t e h hexec hok
    exact not_allDriven_step (valid_of_reachable h) hok hexec

end

def hi : UploadFile where
  data := bytes "hi"
  filename := some "hi.txt"

def hiSettings : Settings where
  sha256 _ := "8f434346648f6b96df89dda901c5176b10a6d83961dd3c1ac88b59b2dc327aa4"
  objectUri key := "s3://ragent/" ++ key
  pipelineVersion := "v1"

/-- The first request dies behind the insertion of its row, and the second is told that the upload
    is a duplicate. -/
theorem duplicate_of_a_failed_upload :
    ¬ ∀ (settings : Settings) (s : State),
      Reachable Fresh (exec settings) (fun _ _ => True) s → AllDriven s := by
  intro hall
  obtain ⟨t, hrun, hanswer, hpublished⟩ : ∃ t, run (exec hiSettings) {}
      [.arrive hi, .call 0 "" "", .call 0 "d1" "", .fail 0 "r1" "t1" false,
        .arrive hi, .call 1 "" "", .call 1 "d2" "", .call 1 "" ""] = some t ∧
      .answered (.duplicate "d1") ∈ t.requests ∧ t.published = [] :=
    ⟨_, rfl, List.mem_cons_of_mem _ List.mem_cons_self, rfl⟩
  have hstart : Reachable Fresh (exec hiSettings) (fun _ _ => True) {} := .start rfl
  have hreachable := reachable_of_run hstart (fun _ _ _ => trivial) hrun
  obtain ⟨q, hq, -⟩ := hall hiSettings t hreachable _ hanswer
  rw [hpublished] at hq
  cases hq

def unhurried (settings : Settings) (s : State) : Event → Bool
  | .call i _ _ => match s.requests[i]? with
    | some (.selectDocument file) =>
      (documentOf settings s file).all fun row => row.id ∉ s.requests.filterMap Progress.owed
    | _ => true
  | _ => true

theorem unhurried_of_check {settings : Settings} {s : State} {e : Event}
    (h : unhurried settings s e = true) : Unhurried settings s e := by
  cases e with
  | call i id traceId =>
    intro file row hp hrow
    simpa [unhurried, hp, hrow] using h
  | arrive file => trivial
  | fail i id traceId effect => trivial

theorem duplicate_of_a_finished_upload :
    ∃ t, run (exec hiSettings) {}
        [.arrive hi, .call 0 "" "", .call 0 "d1" "", .call 0 "r1" "t1", .call 0 "" "", .call 0 "" "",
          .arrive hi, .call 1 "" "", .call 1 "d2" "", .call 1 "" ""] = some t ∧
      .answered (.duplicate "d1") ∈ t.requests ∧ Published t "d1" := by
  obtain ⟨t, hrun, hanswer⟩ : ∃ t, run (guarded (exec hiSettings) (unhurried hiSettings)) {}
      [.arrive hi, .call 0 "" "", .call 0 "d1" "", .call 0 "r1" "t1", .call 0 "" "", .call 0 "" "",
        .arrive hi, .call 1 "" "", .call 1 "d2" "", .call 1 "" ""] = some t ∧
      .answered (.duplicate "d1") ∈ t.requests :=
    ⟨_, rfl, List.mem_cons_of_mem _ List.mem_cons_self⟩
  have hstart : Reachable Fresh (exec hiSettings) (Unhurried hiSettings) {} := .start rfl
  have hreachable := (reachable_of_guarded_run (fun _ _ _ _ _ _ => trivial)
    (fun _ _ _ => unhurried_of_check) hstart trivial hrun).1
  have hpublished := (answered_uploads_are_driven hiSettings).1 t hreachable _ hanswer
  exact ⟨t, run_of_guarded_run hrun, hanswer, hpublished⟩

end Ragent.Uploads
