import Ragent.Answers

set_option autoImplicit false

/-!
# Three ways to deliver an answer

`_complete` and `_stream` of `ragent/api/openai_compat.py`, `ask` of `ragent/api/main.py` with the
handlers of `web/components/Ask.tsx`. A record stands for the JSON text made of it, without the
fields that are constant.
-/
namespace Ragent.AnswerSurfaces
open PyNumbers PyJson HybridSearch Answers

section
variable {F : Type} [PyFloat F]

/-- `v or default` -/
def orElse (v default : Json F) : Json F := if v.truthy PyFloat.isZero then v else default

/-- What `_citation_payload` keeps. -/
def clientFields : List String :=
  ["marker", "document_id", "document_name", "provenance", "section_path", "regions", "char_start",
    "char_end", "text"]

/-- An item that is no dictionary or lacks a field raises. -/
def trimmed : Json F → Option (Dict F)
  | .dict keys item =>
    (clientFields.mapM fun key => (Dict.get ⟨keys, item⟩ key).map fun v => (key, v)).map Dict.ofFields
  | _ => none

def citationPayload : Json F → Option (List (Dict F))
  | .list items => items.mapM trimmed
  | _ => none

structure Totals where
  promptTokens : ℤ
  completionTokens : ℤ
  totalTokens : ℤ
  deriving DecidableEq

/-- `usage.get(key, 0)`, which is added up. -/
def tokens (usage : Json F) (key : String) : Option ℤ :=
  match usage with
  | .dict keys item => match Dict.get ⟨keys, item⟩ key with
    | some (.int n) => some n
    | some _ => none
    | none => some 0
  | _ => none

def totals (usage : Json F) : Option Totals := do
  let prompt ← tokens usage "input_tokens"
  let completion ← tokens usage "output_tokens"
  return ⟨prompt, completion, prompt + completion⟩

structure Completion (F : Type) where
  id : String
  created : ℕ
  model : String
  content : List Char
  usage : Totals
  citations : List (Dict F)

structure Collected (F : Type) where
  chunks : List (List Char) := []
  citations : Json F := .list []
  usage : Json F := Dict.empty.json

def collect (s : Collected F) (chunk : AnswerChunk F) : Collected F :=
  match chunk.type with
  | .delta => { s with chunks := s.chunks ++ [chunk.text] }
  | .citations => { s with citations := orElse chunk.data (.list []) }
  | .usage => { s with usage := orElse chunk.data Dict.empty.json }
  | .done => s

/-- `none` stands for an exception. -/
def complete (id model : String) (created : ℕ) (chunks : List (AnswerChunk F)) :
    Option (Completion F) := do
  let s := chunks.foldl collect {}
  let usage ← totals s.usage
  let citations ← citationPayload s.citations
  return {
    id := id
    created := created
    model := model
    content := s.chunks.flatten
    usage := usage
    citations := citations }

structure CompletionChunk (F : Type) where
  id : String
  created : ℕ
  model : String
  role : Option String := none
  content : Option (List Char) := none
  finishReason : Option String := none
  citations : Option (List (Dict F)) := none
  usage : Option Totals := none

inductive Frame (F : Type)
  | data (chunk : CompletionChunk F)
  /-- `[DONE]` -/
  | done

structure Streamed (F : Type) where
  frames : List (Frame F)
  citations : Json F := .list []
  usage : Json F := Dict.empty.json

def streamStep (id model : String) (created : ℕ) (s : Streamed F) (chunk : AnswerChunk F) :
    Streamed F :=
  if chunk.type = .delta ∧ chunk.text ≠ [] then
    { s with
      frames := s.frames ++
        [.data { id := id, created := created, model := model, content := some chunk.text }] }
  else match chunk.type with
    | .citations => { s with citations := orElse chunk.data (.list []) }
    | .usage => { s with usage := orElse chunk.data Dict.empty.json }
    | _ => s

def openingFrame (id model : String) (created : ℕ) : Frame F :=
  .data { id := id, created := created, model := model, role := some "assistant", content := some [] }

def closingFrame (id model : String) (created : ℕ) (citations : List (Dict F)) (usage : Totals) :
    Frame F :=
  .data
    { id := id
      created := created
      model := model
      finishReason := some "stop"
      citations := some citations
      usage := some usage }

def stream (id model : String) (created : ℕ) (chunks : List (AnswerChunk F)) :
    Option (List (Frame F)) := do
  let s := chunks.foldl (streamStep id model created)
    { frames := [openingFrame id model created] }
  let citations ← citationPayload s.citations
  let usage ← totals s.usage
  return s.frames ++ [closingFrame id model created citations usage, .done]

def eventName : ChunkType → String
  | .delta => "delta"
  | .citations => "citations"
  | .usage => "usage"
  | .done => "done"

structure AskEvent (F : Type) where
  event : String
  data : Json F

def askEvent (chunk : AnswerChunk F) : AskEvent F :=
  { event := eventName chunk.type
    data := if chunk.type = .delta then
        (Dict.ofFields [("text", .str (String.ofList chunk.text))]).json
      else orElse chunk.data Dict.empty.json }

def ask (round6 : F → F) (passages : List (Passage F)) (chunks : List (AnswerChunk F)) :
    List (AskEvent F) :=
  { event := "passages"
    data := .list (passages.map fun p => (Dict.ofFields (passageFields round6 p)).json) } ::
    chunks.map askEvent

structure Turn (F : Type) where
  answer : List Char := []
  passages : Json F := .list []
  citations : Json F := .list []
  usage : Json F := .null
  done : Bool := false

/-- `data.text` -/
def textOf : Json F → List Char
  | .dict keys item => match Dict.get ⟨keys, item⟩ "text" with
    | some (.str s) => s.toList
    | _ => []
  | _ => []

def handle (turn : Turn F) (e : AskEvent F) : Turn F :=
  match e.event with
  | "passages" => { turn with passages := e.data }
  | "delta" => { turn with answer := turn.answer ++ textOf e.data }
  | "citations" => { turn with citations := e.data }
  | "usage" => { turn with usage := e.data }
  | "done" => { turn with done := true }
  | _ => turn

def frameContent : Frame F → List Char
  | .data chunk => chunk.content.getD []
  | .done => []

def frameCitations : Frame F → Option (List (Dict F))
  | .data chunk => chunk.citations
  | .done => none

def frameUsage : Frame F → Option Totals
  | .data chunk => chunk.usage
  | .done => none

/-- The three clients hold the same text, the same citations and the same totals. -/
structure SameAnswer (resolved : List (Dict F)) (completion : Completion F) (frames : List (Frame F))
    (turn : Turn F) : Prop where
  streamed_content : frames.flatMap frameContent = completion.content
  asked_content : turn.answer = completion.content
  streamed_citations : frames.findSome? frameCitations = some completion.citations
  asked_citations : turn.citations = .list (resolved.map Dict.json)
  trimmed_citations : citationPayload (.list (resolved.map Dict.json)) = some completion.citations
  streamed_usage : frames.findSome? frameUsage = some completion.usage

end

section
variable {F : Type}

def contentFrame (id model : String) (created : ℕ) (delta : List Char) : Frame F :=
  .data { id := id, created := created, model := model, content := some delta }

theorem findSome?_contentFrame {β : Type} {id model : String} {created : ℕ}
    {deltas : List (List Char)} (f : Frame F → Option β)
    (h : ∀ delta, f (contentFrame id model created delta) = none) :
    (deltas.map (contentFrame id model created)).findSome? f = none := by
  rw [List.findSome?_eq_none_iff]
  intro frame hframe
  obtain ⟨delta, -, rfl⟩ := List.mem_map.mp hframe
  exact h delta

theorem flatMap_contentFrame (id model : String) (created : ℕ) (deltas : List (List Char)) :
    ((deltas.filter (· ≠ [])).map (contentFrame (F := F) id model created)).flatMap frameContent =
      deltas.flatten := by
  induction deltas with
  | nil => rfl
  | cons delta deltas ih =>
    by_cases hempty : delta = []
    · simpa [hempty] using ih
    · simp only [ne_eq, hempty, not_false_eq_true, decide_true, List.filter_cons_of_pos,
        List.map_cons, List.flatMap_cons, List.flatten_cons, ih]
      rfl

variable [PyFloat F]

theorem orElse_list (items : List (Json F)) : orElse (.list items) (.list []) = .list items := by
  cases items with
  | nil => rfl
  | cons item items => rfl

theorem orElse_dict_iff (items : List (Json F)) :
    orElse (.list items) Dict.empty.json = .list items ↔ items ≠ [] := by
  cases items with
  | nil =>
    refine ⟨fun h => ?_, fun h => absurd rfl h⟩
    cases h
  | cons item items => exact ⟨fun _ => List.cons_ne_nil item items, fun _ => rfl⟩

theorem foldl_collect_deltas (deltas : List (List Char)) (s : Collected F) :
    (deltas.map fun delta => ({ type := .delta, text := delta } : AnswerChunk F)).foldl collect s =
      { s with chunks := s.chunks ++ deltas } := by
  induction deltas generalizing s with
  | nil => simp
  | cons delta deltas ih =>
    rw [List.map_cons, List.foldl_cons, ih]
    simp [collect]

theorem foldl_streamStep_deltas (id model : String) (created : ℕ) (deltas : List (List Char))
    (s : Streamed F) :
    (deltas.map fun delta => ({ type := .delta, text := delta } : AnswerChunk F)).foldl
        (streamStep id model created) s =
      { s with
        frames := s.frames ++ (deltas.filter (· ≠ [])).map (contentFrame id model created) } := by
  induction deltas generalizing s with
  | nil => simp
  | cons delta deltas ih =>
    rw [List.map_cons, List.foldl_cons, ih]
    by_cases hempty : delta = []
    · simp [streamStep, hempty]
    · simp [streamStep, hempty, contentFrame]

theorem handle_askEvent_delta (turn : Turn F) (delta : List Char) :
    handle turn (askEvent { type := .delta, text := delta }) =
      { turn with answer := turn.answer ++ delta } := by
  have htext : textOf (askEvent (F := F) { type := .delta, text := delta }).data = delta :=
    String.toList_ofList
  change { turn with answer := turn.answer ++ textOf (askEvent _).data } = _
  rw [htext]

theorem foldl_handle_deltas (deltas : List (List Char)) (turn : Turn F) :
    ((deltas.map fun delta => ({ type := .delta, text := delta } : AnswerChunk F)).map
        askEvent).foldl handle turn =
      { turn with answer := turn.answer ++ deltas.flatten } := by
  induction deltas generalizing turn with
  | nil => simp
  | cons delta deltas ih =>
    rw [List.map_cons, List.map_cons, List.foldl_cons, handle_askEvent_delta, ih]
    simp

end

section
variable {F : Type} [PyFloat F] (round6 : F → F) (pricing : List (String × F × F))
  (provider : Option Provider) (question : List Char) (passages : List (Passage F))

def resolved : List (Dict F) :=
  resolveCitations round6 (answerDeltas provider question passages).flatten passages

def usageJson : Json F :=
  match answerUsage provider question passages with
  | some u => (usageDict round6 pricing u).json
  | none => Dict.empty.json

theorem orElse_usageDict (u : Usage) :
    orElse (usageDict round6 pricing u).json Dict.empty.json = (usageDict round6 pricing u).json :=
  rfl

theorem foldl_collect_answerStream :
    (answerStream round6 pricing provider question passages).foldl collect {} =
      { chunks := answerDeltas provider question passages
        citations := .list ((resolved round6 provider question passages).map Dict.json)
        usage := usageJson round6 pricing provider question passages } := by
  rw [answerStream_eq, List.append_assoc, List.foldl_append, foldl_collect_deltas]
  unfold usageJson
  cases answerUsage provider question passages with
  | none => simp [collect, citationsChunk, orElse_list, resolved]
  | some u => simp [collect, citationsChunk, orElse_list, orElse_usageDict, resolved]

theorem foldl_streamStep_answerStream (id model : String) (created : ℕ) (opening : List (Frame F)) :
    (answerStream round6 pricing provider question passages).foldl (streamStep id model created)
        { frames := opening } =
      { frames := opening ++ ((answerDeltas provider question passages).filter (· ≠ [])).map
          (contentFrame id model created)
        citations := .list ((resolved round6 provider question passages).map Dict.json)
        usage := usageJson round6 pricing provider question passages } := by
  rw [answerStream_eq, List.append_assoc, List.foldl_append, foldl_streamStep_deltas]
  unfold usageJson
  cases answerUsage provider question passages with
  | none => simp [streamStep, citationsChunk, orElse_list, resolved]
  | some u => simp [streamStep, citationsChunk, orElse_list, orElse_usageDict, resolved]

theorem foldl_handle_ask :
    let turn := (ask round6 passages
      (answerStream round6 pricing provider question passages)).foldl handle {}
    turn.answer = (answerDeltas provider question passages).flatten ∧
      turn.citations =
        orElse (.list ((resolved round6 provider question passages).map Dict.json))
          Dict.empty.json := by
  rw [answerStream_eq, ask, List.foldl_cons, List.append_assoc, List.map_append, List.foldl_append,
    foldl_handle_deltas]
  cases answerUsage provider question passages with
  | none => exact ⟨rfl, rfl⟩
  | some u => exact ⟨rfl, rfl⟩

theorem isSome_mapM {α β : Type} {f : α → Option β} {items : List α}
    (h : ∀ a ∈ items, (f a).isSome) : (items.mapM f).isSome := by
  induction items with
  | nil => rfl
  | cons a items ih =>
    obtain ⟨b, hb⟩ := Option.isSome_iff_exists.mp (h a List.mem_cons_self)
    obtain ⟨bs, hbs⟩ := Option.isSome_iff_exists.mp
      (ih fun a ha => h a (List.mem_cons_of_mem _ ha))
    simp [List.mapM_cons, hb, hbs]

theorem isSome_trimmed_citation (marker : ℕ) (p : Passage F) :
    (trimmed (citation round6 marker p).json).isSome := by
  have hget : ∀ key ∈ clientFields, ((citation round6 marker p).get key).isSome := by
    intro key hkey
    rw [citation, Dict.get_ofFields, Dict.isSome_lookup_iff, List.mem_toFinset]
    have hnames : clientFields ⊆ ["marker", "chunk_id", "text", "score", "document_id",
      "document_name", "provenance", "section_path", "regions", "char_start", "char_end",
      "retrievers"] := by decide
    exact hnames hkey
  have hfields := isSome_mapM (f := fun key =>
    ((citation round6 marker p).get key).map fun v => (key, v)) (fun key hkey => by
      simpa using hget key hkey)
  change (Option.map Dict.ofFields (clientFields.mapM fun key =>
    ((citation round6 marker p).get key).map fun v => (key, v))).isSome
  simpa using hfields

theorem isSome_citationPayload :
    (citationPayload (.list ((resolved round6 provider question passages).map Dict.json))).isSome := by
  apply isSome_mapM
  intro v hv
  obtain ⟨d, hd, rfl⟩ := List.mem_map.mp hv
  obtain ⟨marker, -, hd⟩ := List.mem_filterMap.mp hd
  obtain ⟨p, -, rfl⟩ := Option.map_eq_some_iff.mp hd
  exact isSome_trimmed_citation round6 marker p

theorem isSome_totals : (totals (usageJson round6 pricing provider question passages)).isSome := by
  unfold usageJson
  cases answerUsage provider question passages with
  | none => rfl
  | some u => rfl

section
variable {payload : List (Dict F)} {usage : Totals}
  (hpayload : citationPayload (.list ((resolved round6 provider question passages).map Dict.json)) =
    some payload)
  (husage : totals (usageJson round6 pricing provider question passages) = some usage)

include hpayload husage

theorem complete_answerStream (id model : String) (created : ℕ) :
    complete id model created (answerStream round6 pricing provider question passages) = some
      { id := id
        created := created
        model := model
        content := (answerDeltas provider question passages).flatten
        usage := usage
        citations := payload } := by
  unfold complete
  rw [foldl_collect_answerStream]
  simp only [husage, hpayload, Option.bind_eq_bind, Option.bind_some]
  rfl

theorem stream_answerStream (id model : String) (created : ℕ) :
    stream id model created (answerStream round6 pricing provider question passages) = some
      (openingFrame id model created ::
        ((answerDeltas provider question passages).filter (· ≠ [])).map
          (contentFrame id model created) ++
        [closingFrame id model created payload usage, .done]) := by
  unfold stream
  rw [foldl_streamStep_answerStream]
  simp only [husage, hpayload, Option.bind_eq_bind, Option.bind_some]
  rfl

end

/-- The three surfaces deliver one answer. -/
def Delivered (id id' model : String) (created created' : ℕ) : Prop :=
  let chunks := answerStream round6 pricing provider question passages
  ∃ completion frames, complete id model created chunks = some completion ∧
    stream id' model created' chunks = some frames ∧
    SameAnswer (resolved round6 provider question passages) completion frames
      ((ask round6 passages chunks).foldl handle {})

theorem delivered_iff_resolved (id id' model : String) (created created' : ℕ) :
    Delivered round6 pricing provider question passages id id' model created created' ↔
      resolved round6 provider question passages ≠ [] := by
  obtain ⟨payload, hpayload⟩ := Option.isSome_iff_exists.mp
    (isSome_citationPayload round6 provider question passages)
  obtain ⟨usage, husage⟩ := Option.isSome_iff_exists.mp
    (isSome_totals round6 pricing provider question passages)
  obtain ⟨hanswer, hcitations⟩ := foldl_handle_ask round6 pricing provider question passages
  have hlist : resolved round6 provider question passages ≠ [] ↔
      orElse (.list ((resolved round6 provider question passages).map Dict.json))
        Dict.empty.json = .list ((resolved round6 provider question passages).map Dict.json) := by
    rw [orElse_dict_iff, ne_eq, ne_eq, List.map_eq_nil_iff]
  rw [hlist, ← hcitations]
  constructor
  · intro hdelivered
    obtain ⟨completion, frames, -, -, same⟩ := hdelivered
    exact same.asked_citations
  · intro hasked
    refine ⟨_, _, complete_answerStream round6 pricing provider question passages hpayload husage
      id model created, stream_answerStream round6 pricing provider question passages hpayload
      husage id' model created', ?_⟩
    constructor
    · rw [List.cons_append, List.flatMap_cons, List.flatMap_append, flatMap_contentFrame]
      simp [frameContent, openingFrame, closingFrame]
    · exact hanswer
    · rw [List.cons_append, List.findSome?_cons, List.findSome?_append,
        findSome?_contentFrame _ fun _ => rfl]
      rfl
    · exact hasked
    · exact hpayload
    · rw [List.cons_append, List.findSome?_cons, List.findSome?_append,
        findSome?_contentFrame _ fun _ => rfl]
      rfl

/-- A passage is cited: without a provider the evidence cites each, a written answer must do so. -/
theorem answers_agree_iff (id id' model : String) (created created' : ℕ) :
    Delivered round6 pricing provider question passages id id' model created created' ↔
      passages ≠ [] ∧ ∀ streamText, provider = some streamText →
        ∃ marker ∈ markers ((streamText (buildPrompt question passages)).map (·.1)).flatten,
          1 ≤ marker ∧ marker ≤ passages.length := by
  rw [delivered_iff_resolved, resolved]
  by_cases hnone : passages = []
  · subst hnone
    simp [resolveCitations_nil]
  rw [resolveCitations_ne_nil_iff, and_iff_right hnone]
  unfold answerDeltas
  rw [if_neg hnone]
  cases provider with
  | none =>
    have hpos := List.length_pos_iff.mpr hnone
    simp only [reduceCtorEq, false_implies, implies_true, iff_true]
    refine ⟨1, ?_, le_refl 1, hpos⟩
    rw [List.flatten_singleton]
    exact one_mem_markers_extractiveAnswer hnone
  | some streamText =>
    simp only [Option.some.injEq, forall_eq', List.flatten_filter_ne_nil]

end
/-- Without passages the question is answered with an empty list of citations, and `ask` sends an
    object. -/
theorem no_citations_are_no_list :
    ¬ ∀ (provider : Option Provider) (question : List Char) (passages : List (Passage ℚ))
      (id id' model : String) (created created' : ℕ),
      Delivered (fun x => x) [] provider question passages id id' model created created' := by
  intro hall
  have hdelivered := hall none "What is this about?".toList [] "chatcmpl-1" "chatcmpl-2" "ragent" 0 0
  rw [delivered_iff_resolved] at hdelivered
  exact hdelivered (resolveCitations_nil _ _)

end Ragent.AnswerSurfaces
