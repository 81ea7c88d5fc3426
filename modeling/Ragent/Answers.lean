import Ragent.FlowText
import Ragent.HybridSearch

set_option autoImplicit false

/-!
# Answers

`ragent/agent/answer.py`. A provider is what it streams for a prompt; the price list and rounding to
six digits are parameters.
-/
namespace Ragent.Answers
open PyText SourceTypes FlattenedDocument FlowText PyNumbers PyJson HybridSearch

def digitValue (c : Char) : ℕ :=
  match decimalZeros.find? fun z => z ≤ c.toNat && c.toNat < z + 10 with
  | some z => c.toNat - z
  | none => 0

/-- `_MARKER_RE` at the front of a text. -/
def markerAt : List Char → Option ℕ
  | '[' :: d :: ']' :: _ => if isDecimal d then some (digitValue d) else none
  | '[' :: d :: e :: ']' :: _ =>
    if isDecimal d && isDecimal e then some (10 * digitValue d + digitValue e) else none
  | _ => none

/-- `_MARKER_RE.finditer`; no match begins inside another. -/
def markers : List Char → List ℕ
  | [] => []
  | c :: text => (markerAt (c :: text)).toList ++ markers text

theorem one_mem_markers (before after : List Char) :
    1 ∈ markers (before ++ '[' :: '1' :: ']' :: after) := by
  induction before with
  | nil =>
    have hfirst : markerAt ('[' :: '1' :: ']' :: after) = some 1 := rfl
    rw [List.nil_append, markers, hfirst]
    exact List.mem_cons_self
  | cons c before ih => exact List.mem_append_right _ ih

section
variable {F : Type}

/-- The markers that `resolve_citations` keeps. -/
def citedMarkers (text : List Char) (passages : List (Passage F)) : List ℕ :=
  (markers text).foldl
    (fun seen marker =>
      if marker < 1 ∨ passages.length < marker ∨ marker ∈ seen then seen else seen ++ [marker]) []

theorem mem_citedMarkers {text : List Char} {passages : List (Passage F)} {marker : ℕ} :
    marker ∈ citedMarkers text passages ↔
      marker ∈ markers text ∧ 1 ≤ marker ∧ marker ≤ passages.length := by
  have hfold : ∀ (ms seen : List ℕ),
      marker ∈ ms.foldl (fun seen marker =>
        if marker < 1 ∨ passages.length < marker ∨ marker ∈ seen then seen else seen ++ [marker])
        seen ↔ marker ∈ seen ∨ (marker ∈ ms ∧ 1 ≤ marker ∧ marker ≤ passages.length) := by
    intro ms
    induction ms with
    | nil => simp
    | cons m ms ih =>
      intro seen
      rw [List.foldl_cons, ih, List.mem_cons]
      by_cases hskip : m < 1 ∨ passages.length < m ∨ m ∈ seen
      · rw [if_pos hskip]
        grind
      · rw [if_neg hskip, List.mem_append, List.mem_singleton]
        grind
  rw [citedMarkers, hfold]
  simp

end

section
variable {F : Type} [PyFloat F] (round6 : F → F)

def ofRat (q : ℚ) : F := PyFloat.trueDiv q.num q.den

def regionDict (r : Region) : Dict F := Dict.ofFields
  [("page_no", .int r.pageNo), ("x0", .float (ofRat r.x0)), ("y0", .float (ofRat r.y0)),
    ("x1", .float (ofRat r.x1)), ("y1", .float (ofRat r.y1))]

def offsetJson : Option ℕ → Json F
  | some n => .int n
  | none => .null

/-- The items of `to_dict`. -/
def passageFields (p : Passage F) : List (String × Json F) :=
  [("chunk_id", .str p.chunkId),
    ("text", .str (String.ofList p.text)),
    ("score", .float (round6 p.score)),
    ("document_id", .str p.documentId),
    ("document_name", .str p.documentName),
    ("provenance", .str p.provenance),
    ("section_path", .list (p.sectionPath.map .str)),
    ("regions", .list (p.regions.map fun r => (regionDict r).json)),
    ("char_start", offsetJson p.charStart),
    ("char_end", offsetJson p.charEnd),
    ("retrievers", (Dict.ofFields (p.retrievers.map fun r => (r.1, .int r.2))).json)]

/-- `{"marker": marker, **passage.to_dict()}` -/
def citation (marker : ℕ) (p : Passage F) : Dict F :=
  Dict.ofFields (("marker", .int marker) :: passageFields round6 p)

def resolveCitations (text : List Char) (passages : List (Passage F)) : List (Dict F) :=
  ((citedMarkers text passages).insertionSort (· ≤ ·)).filterMap fun marker =>
    passages[marker - 1]?.map (citation round6 marker)

theorem resolveCitations_ne_nil_iff {text : List Char} {passages : List (Passage F)} :
    resolveCitations round6 text passages ≠ [] ↔
      ∃ marker ∈ markers text, 1 ≤ marker ∧ marker ≤ passages.length := by
  have hsome : ∀ marker ∈ citedMarkers text passages,
      (passages[marker - 1]?.map (citation round6 marker)).isSome := by
    intro marker hmarker
    obtain ⟨-, hpos, hle⟩ := mem_citedMarkers.mp hmarker
    rw [Option.isSome_map, List.getElem?_eq_getElem (by omega)]
    rfl
  constructor
  · intro hne
    obtain ⟨d, hd⟩ := List.exists_mem_of_ne_nil _ hne
    obtain ⟨marker, hmarker, -⟩ := List.mem_filterMap.mp hd
    rw [List.mem_insertionSort] at hmarker
    obtain ⟨hmem, hrange⟩ := mem_citedMarkers.mp hmarker
    exact ⟨marker, hmem, hrange⟩
  · rintro ⟨marker, hmem, hrange⟩
    have hmarker := mem_citedMarkers.mpr ⟨hmem, hrange⟩
    obtain ⟨d, hd⟩ := Option.isSome_iff_exists.mp (hsome marker hmarker)
    apply List.ne_nil_of_mem
    exact List.mem_filterMap.mpr ⟨marker, (List.mem_insertionSort _).mpr hmarker, hd⟩

end

section
variable {F : Type}

/-- `sep.join(parts)` -/
def joined (sep : String) (parts : List (List Char)) : List Char := join sep.toList parts

def promptBlock (i : ℕ) (p : Passage F) : List Char :=
  let place := joined " > " (p.sectionPath.map String.toList)
  ("[" ++ toString i ++ "] " ++ p.documentName).toList ++
    (if place ≠ [] then " — ".toList ++ place else []) ++
    (match p.regions with
      | r :: _ => (" (page " ++ r.pageNo.repr ++ ")").toList
      | [] => []) ++
    '\n' :: p.text

def buildPrompt (question : List Char) (passages : List (Passage F)) : List Char :=
  "Passages:\n\n".toList ++
    joined "\n\n---\n\n" (passages.zipIdx.map fun p => promptBlock (p.2 + 1) p.1) ++
    "\n\n---\n\nQuestion: ".toList ++ question

/-- `snippet[:600].rsplit(" ", 1)[0] + "…"` -/
def shortened (snippet : List Char) : List Char :=
  let cut := snippet.take 600
  let kept := cut.rdropWhile (· ≠ ' ')
  (if kept = [] then cut else kept.dropLast) ++ ['…']

def evidence (i : ℕ) (p : Passage F) : List (List Char) :=
  let snippet := strip p.text
  [("**[" ++ toString i ++ "] " ++ p.documentName ++ "**").toList,
    if 600 < snippet.length then shortened snippet else snippet, []]

def noProvider : String :=
  "_No model provider is configured, so this is the retrieved evidence rather " ++
  "than a written answer. Retrieval, ranking and citations are live. Set " ++
  "`ANTHROPIC_API_KEY` or `OPENAI_API_KEY` for a written one._"

def extractiveAnswer (passages : List (Passage F)) : List Char :=
  if passages = [] then "No passages in the indexed corpus match that question.".toList
  else joined "\n" (noProvider.toList :: [] ::
    passages.zipIdx.flatMap fun p => evidence (p.2 + 1) p.1)

theorem header_first (name : String) :
    ("**[" ++ toString (0 + 1) ++ "] " ++ name ++ "**").toList =
      ['*', '*'] ++ '[' :: '1' :: ']' :: (' ' :: name.toList ++ "**".toList) := by
  have hopen : ("**[" ++ toString (0 + 1) ++ "] ").toList = "**[1] ".toList := by decide
  rw [String.toList_append, String.toList_append, hopen]
  simp

theorem one_mem_markers_extractiveAnswer {passages : List (Passage F)} (h : passages ≠ []) :
    1 ∈ markers (extractiveAnswer passages) := by
  cases passages with
  | nil => exact absurd rfl h
  | cons p passages =>
    obtain ⟨after, hafter⟩ : ∃ after, extractiveAnswer (p :: passages) =
        (noProvider.toList ++ "\n".toList ++ "\n".toList ++ ['*', '*']) ++
          '[' :: '1' :: ']' :: after := by
      unfold extractiveAnswer
      rw [if_neg (List.cons_ne_nil p passages), List.zipIdx_cons, List.flatMap_cons]
      simp only [evidence, header_first, joined, List.cons_append, join]
      simp only [List.append_assoc, List.nil_append, List.cons_append]
      exact ⟨_, rfl⟩
    rw [hafter]
    exact one_mem_markers _ after

end

inductive ChunkType
  | delta
  | citations
  | usage
  | done
  deriving DecidableEq

structure AnswerChunk (F : Type) where
  type : ChunkType
  text : List Char := []
  data : Json F := .null

structure Usage where
  model : String
  provider : String
  inputTokens : ℤ
  outputTokens : ℤ
  latencyMs : ℤ
  deriving DecidableEq

abbrev Provider := List Char → List (List Char × Option Usage)

section
variable {F : Type} [PyFloat F] (round6 : F → F) (pricing : List (String × F × F))

/-- `cost_usd`; a model without a price bills as 0. -/
def costUsd (u : Usage) : F :=
  let rates := (pricing.lookup u.model).getD (PyFloat.ofInt 0, PyFloat.ofInt 0)
  PyFloat.div (PyFloat.add (PyFloat.mul (PyFloat.ofInt u.inputTokens) rates.1)
    (PyFloat.mul (PyFloat.ofInt u.outputTokens) rates.2)) (PyFloat.ofInt 1000000)

def usageDict (u : Usage) : Dict F := Dict.ofFields
  [("model", .str u.model),
    ("provider", .str u.provider),
    ("input_tokens", .int u.inputTokens),
    ("output_tokens", .int u.outputTokens),
    ("latency_ms", .int u.latencyMs),
    ("cost_usd", .float (round6 (costUsd pricing u))),
    ("priced", .bool (pricing.lookup u.model).isSome)]

def citationsChunk (text : List Char) (passages : List (Passage F)) : AnswerChunk F :=
  { type := .citations, data := .list ((resolveCitations round6 text passages).map Dict.json) }

def nothingFound : List Char := "I could not find anything relevant in the corpus.".toList

def answerStream (provider : Option Provider) (question : List Char) (passages : List (Passage F)) :
    List (AnswerChunk F) :=
  if passages = [] then
    [{ type := .delta, text := nothingFound }, { type := .citations, data := .list [] },
      { type := .done }]
  else match provider with
    | none =>
      let text := extractiveAnswer passages
      [{ type := .delta, text := text }, citationsChunk round6 text passages, { type := .done }]
    | some streamText =>
      let items := streamText (buildPrompt question passages)
      let collected := (items.map (·.1)).filter (· ≠ [])
      let usage := (items.filterMap (·.2)).getLast?
      collected.map (fun delta => { type := .delta, text := delta }) ++
        citationsChunk round6 collected.flatten passages ::
        (usage.toList.map fun u => { type := .usage, data := (usageDict round6 pricing u).json }) ++
        [{ type := .done }]

def answerDeltas (provider : Option Provider) (question : List Char) (passages : List (Passage F)) :
    List (List Char) :=
  if passages = [] then [nothingFound]
  else match provider with
    | none => [extractiveAnswer passages]
    | some streamText =>
      ((streamText (buildPrompt question passages)).map (·.1)).filter (· ≠ [])

def answerUsage (provider : Option Provider) (question : List Char) (passages : List (Passage F)) :
    Option Usage :=
  if passages = [] then none
  else provider.bind fun streamText =>
    ((streamText (buildPrompt question passages)).filterMap (·.2)).getLast?

theorem resolveCitations_nil (text : List Char) :
    resolveCitations round6 text ([] : List (Passage F)) = [] := by
  by_contra hne
  obtain ⟨marker, -, hpos, hle⟩ := (resolveCitations_ne_nil_iff round6).mp hne
  rw [List.length_nil] at hle
  omega

/-- Deltas, then the citations of their text, then the usage. -/
theorem answerStream_eq (provider : Option Provider) (question : List Char)
    (passages : List (Passage F)) :
    let deltas := answerDeltas provider question passages
    answerStream round6 pricing provider question passages =
      deltas.map (fun delta => { type := .delta, text := delta }) ++
        citationsChunk round6 deltas.flatten passages ::
        ((answerUsage provider question passages).toList.map fun u =>
          { type := .usage, data := (usageDict round6 pricing u).json }) ++
        [{ type := .done }] := by
  by_cases hnone : passages = []
  · subst hnone
    simp only [answerStream, answerDeltas, answerUsage, if_true, citationsChunk,
      resolveCitations_nil]
    rfl
  · simp only [answerStream, answerDeltas, answerUsage, if_neg hnone]
    cases provider with
    | none =>
      simp only [List.flatten_cons, List.flatten_nil, List.append_nil]
      rfl
    | some streamText => rfl

end
end Ragent.Answers
