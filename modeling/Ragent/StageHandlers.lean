import Mathlib.Data.Finset.Basic
import Ragent.ChunkCoverage
import Ragent.Consumer
import Ragent.DocumentTables

set_option autoImplicit false

/-!
# The stage handlers

The modules of `ragent/ingest/stages`, one statement or transaction at a time, over the tables and
the collections of the vector index (`ragent/retrieval/vectors.py`). `convert`, `ocr`, `tables` and
`figures` write nothing that is modelled here, and `contextualize` only a column that no other stage
interprets. A statement that would fail is no move: the handler raises instead.
-/
namespace Ragent.StageHandlers
open Formats Runner Consumer SourceTypes PyNumbers ChunkDocument DocumentTables

/-- The tables, and for each strategy's collection the ids of the points of each document. -/
structure World where
  db : Database := {}
  points : String → String → Finset String := fun _ _ => ∅

structure Settings (F : Type) where
  chunkStrategies : List String
  options : ChunkOptions F

inductive Execution
  | started
  | detected (family : FormatFamily)
  /-- A handler about to raise. -/
  | refused
  | chunking (blocks : List (SourceBlock Char)) (left : List String)
  | embedding (left : List String)
  | loaded (strategy : String) (ids : List String) (left : List String)
  | cleared (strategy : String) (ids : List String) (left : List String)
  | returned

/-- What the next statement meets: what is read out of the source, and the ids that are drawn. -/
inductive Choice
  | next
  | format (family : Option FormatFamily)
  | parsed (pages : List ℤ) (pageIds : List String) (blocks : List (SourceBlock Char))
      (blockIds : List String)
  | drawn (ids : List String)
  | noEmbeddings

namespace World

def setDocumentStatus (w : World) (documentId : String) (status : DocStatus) : World :=
  { w with db := w.db.setDocumentStatus documentId status }

/-- `vectors.delete_document` -/
def deleteDocument (w : World) (strategy documentId : String) : World :=
  { w with
    points := Function.update w.points strategy
      (Function.update (w.points strategy) documentId ∅) }

/-- `vectors.upsert_chunks` -/
def upsertChunks (w : World) (strategy documentId : String) (ids : List String) : World :=
  { w with
    points := Function.update w.points strategy
      (Function.update (w.points strategy) documentId
        (w.points strategy documentId ∪ ids.toFinset)) }

end World

section
variable {F : Type} [PyFloat F] (settings : Settings F)

def detectStage (documentId : String) : Choice → Execution × World → Option (Execution × World)
  | .format (some family), (.started, w) =>
    some (.detected family, w.setDocumentStatus documentId .processing)
  | .format none, (.started, w) => some (.refused, w.setDocumentStatus documentId .quarantined)
  | _, _ => none

/-- A stage that leaves the tables alone. -/
def passStage : Choice → Execution × World → Option (Execution × World)
  | .next, (.started, w) => some (.returned, w)
  | _, _ => none

def parseStage (documentId : String) : Choice → Execution × World → Option (Execution × World)
  | .parsed pages pageIds blocks blockIds, (.started, w) =>
    if w.db.documents documentId ≠ none ∧ w.db.Draws (pageIds ++ blockIds) (pages.length + blocks.length)
        ∧ pageIds.length = pages.length then
      let db := ((w.db.deleteBlocks documentId).insertPages documentId pages pageIds).insertBlocks
        documentId blocks blockIds
      some (.returned, { w with db := db.setDocumentStatus documentId .processing })
    else none
  | _, _ => none

/-- The blocks are those of `split_flow`. -/
def parseFlowStage (documentId : String) : Choice → Execution × World → Option (Execution × World)
  | .parsed [] [] blocks blockIds, (.started, w) =>
    if w.db.documents documentId ≠ none ∧ blocks ≠ [] ∧ w.db.Draws blockIds blocks.length then
      some (.returned,
        { w with db := (w.db.deleteBlocks documentId).insertBlocks documentId blocks blockIds })
    else none
  | _, _ => none

def chunkStage (documentId : String) : Choice → Execution × World → Option (Execution × World)
  | .next, (.started, w) =>
    let blocks := w.db.loadBlocks documentId
    if blocks = [] then none else some (.chunking blocks settings.chunkStrategies, w)
  | .next, (.chunking blocks (strategy :: left), w) =>
    -- left to the bake-off
    if strategy = "semantic" then some (.chunking blocks left, w) else none
  | .drawn ids, (.chunking blocks (strategy :: left), w) =>
    if strategy = "semantic" then none
    else match chunkDocument strategy blocks settings.options with
      | .error _ => none
      | .ok chunks =>
        if w.db.Draws ids chunks.length then
          (w.db.replaceChunks documentId strategy chunks ids).map fun db =>
            (.chunking blocks left, { w with db := db })
        else none
  | .next, (.chunking _ [], w) => some (.returned, w)
  | _, _ => none

def contextualizeStage (documentId : String) :
    Choice → Execution × World → Option (Execution × World)
  | .next, (.started, w) => match settings.chunkStrategies with
    | [] => none
    | strategy :: _ =>
      if w.db.loadChunks documentId strategy = [] then none else some (.returned, w)
  | _, _ => none

def embedStage (documentId : String) : Choice → Execution × World → Option (Execution × World)
  | .next, (.started, w) => some (.embedding settings.chunkStrategies, w)
  | .next, (.embedding (strategy :: left), w) => match w.db.loadChunks documentId strategy with
    | [] => some (.embedding left, w)
    | chunks => some (.loaded strategy (chunks.map (·.id)) left, w)
  | .noEmbeddings, (.loaded _ _ left, w) => some (.embedding left, w)
  | .next, (.loaded strategy ids left, w) =>
    some (.cleared strategy ids left, w.deleteDocument strategy documentId)
  | .next, (.cleared strategy ids left, w) =>
    some (.embedding left, w.upsertChunks strategy documentId ids)
  | .next, (.embedding [], w) => some (.returned, w.setDocumentStatus documentId .ready)
  | _, _ => none

def move (m : StageMessage) (c : Choice) (x : Execution × World) : Option (Execution × World) :=
  match m.stage with
  | "detect" => detectStage m.documentId c x
  | "parse" => parseStage m.documentId c x
  | "parse_flow" => parseFlowStage m.documentId c x
  | "chunk" => chunkStage settings m.documentId c x
  | "contextualize" => contextualizeStage settings m.documentId c x
  | "embed" => embedStage settings m.documentId c x
  | _ => passStage c x

def result (m : StageMessage) : Execution → Option (Option FormatFamily)
  | .detected family => if m.stage = "detect" then some (some family) else none
  | .returned => if m.stage = "detect" then none else some none
  | _ => none

def handlers : Handlers World Execution Choice where
  start _ := .started
  move := move settings
  result := result
  family_iff := by
    intro m h family heq
    cases h with
    | detected found =>
      obtain ⟨hstage, rfl⟩ := by simpa [result] using heq
      simp [hstage]
    | returned =>
      obtain ⟨hstage, rfl⟩ := by simpa [result] using heq
      simp [hstage]
    | _ => cases heq
  failDocument documentId w := w.setDocumentStatus documentId .failed

end

def handled : List String := ["detect", "parse", "parse_flow", "chunk", "contextualize", "embed"]

inductive Step {F : Type} [PyFloat F] (settings : Settings F) (m : StageMessage) (w : World) :
    Choice → Execution → Execution → World → Prop
  | detects (hstage : m.stage = "detect") (family : FormatFamily) :
      Step settings m w (.format (some family)) .started (.detected family)
        (w.setDocumentStatus m.documentId .processing)
  | refuses (hstage : m.stage = "detect") :
      Step settings m w (.format none) .started .refused
        (w.setDocumentStatus m.documentId .quarantined)
  | passes (hstage : m.stage ∉ handled) : Step settings m w .next .started .returned w
  | parses (hstage : m.stage = "parse") (hrow : w.db.documents m.documentId ≠ none)
      {pages : List ℤ} {pageIds : List String} {blocks : List (SourceBlock Char)}
      {blockIds : List String}
      (hdraws : w.db.Draws (pageIds ++ blockIds) (pages.length + blocks.length))
      (hpages : pageIds.length = pages.length) :
      Step settings m w (.parsed pages pageIds blocks blockIds) .started .returned
        { w with
          db := (((w.db.deleteBlocks m.documentId).insertPages m.documentId pages
            pageIds).insertBlocks m.documentId blocks blockIds).setDocumentStatus
              m.documentId .processing }
  | parsesFlow (hstage : m.stage = "parse_flow") (hrow : w.db.documents m.documentId ≠ none)
      {blocks : List (SourceBlock Char)} {blockIds : List String} (hblocks : blocks ≠ [])
      (hdraws : w.db.Draws blockIds blocks.length) :
      Step settings m w (.parsed [] [] blocks blockIds) .started .returned
        { w with
          db := (w.db.deleteBlocks m.documentId).insertBlocks m.documentId blocks blockIds }
  | loadsBlocks (hstage : m.stage = "chunk") (hblocks : w.db.loadBlocks m.documentId ≠ []) :
      Step settings m w .next .started
        (.chunking (w.db.loadBlocks m.documentId) settings.chunkStrategies) w
  | skips (hstage : m.stage = "chunk") {blocks : List (SourceBlock Char)} {left : List String} :
      Step settings m w .next (.chunking blocks ("semantic" :: left)) (.chunking blocks left) w
  | stores (hstage : m.stage = "chunk") {blocks : List (SourceBlock Char)} {σ : String}
      {left ids : List String} {chunks : List (Chunk Char)} {db : Database} (hσ : σ ≠ "semantic")
      (hchunks : chunkDocument σ blocks settings.options = .ok chunks)
      (hdraws : w.db.Draws ids chunks.length)
      (hdb : w.db.replaceChunks m.documentId σ chunks ids = some db) :
      Step settings m w (.drawn ids) (.chunking blocks (σ :: left)) (.chunking blocks left)
        { w with db := db }
  | chunked (hstage : m.stage = "chunk") {blocks : List (SourceBlock Char)} :
      Step settings m w .next (.chunking blocks []) .returned w
  | contextualizes (hstage : m.stage = "contextualize") {σ : String} {left : List String}
      (hstrategies : settings.chunkStrategies = σ :: left)
      (hchunks : w.db.loadChunks m.documentId σ ≠ []) :
      Step settings m w .next .started .returned w
  | embeds (hstage : m.stage = "embed") :
      Step settings m w .next .started (.embedding settings.chunkStrategies) w
  | embedsNothing (hstage : m.stage = "embed") {σ : String} {left : List String}
      (hnil : w.db.loadChunks m.documentId σ = []) :
      Step settings m w .next (.embedding (σ :: left)) (.embedding left) w
  | loadsChunks (hstage : m.stage = "embed") {σ : String} {left : List String}
      (hchunks : w.db.loadChunks m.documentId σ ≠ []) :
      Step settings m w .next (.embedding (σ :: left))
        (.loaded σ ((w.db.loadChunks m.documentId σ).map (·.id)) left) w
  | noEmbeddings (hstage : m.stage = "embed") {σ : String} {ids left : List String} :
      Step settings m w .noEmbeddings (.loaded σ ids left) (.embedding left) w
  | clears (hstage : m.stage = "embed") {σ : String} {ids left : List String} :
      Step settings m w .next (.loaded σ ids left) (.cleared σ ids left)
        (w.deleteDocument σ m.documentId)
  | upserts (hstage : m.stage = "embed") {σ : String} {ids left : List String} :
      Step settings m w .next (.cleared σ ids left) (.embedding left)
        (w.upsertChunks σ m.documentId ids)
  | embedded (hstage : m.stage = "embed") :
      Step settings m w .next (.embedding []) .returned (w.setDocumentStatus m.documentId .ready)

section
variable {F : Type} [PyFloat F] {settings : Settings F} {m : StageMessage} {c : Choice}
  {w w' : World} {k k' : Execution}

theorem step_of_detectStage (hstage : m.stage = "detect")
    (h : detectStage m.documentId c (k, w) = some (k', w')) : Step settings m w c k k' w' := by
  unfold detectStage at h
  split at h
  · rename_i heq
    cases heq
    cases h
    exact .detects hstage _
  · rename_i heq
    cases heq
    cases h
    exact .refuses hstage
  · cases h

theorem step_of_passStage (hstage : m.stage ∉ handled) (h : passStage c (k, w) = some (k', w')) :
    Step settings m w c k k' w' := by
  unfold passStage at h
  split at h
  · rename_i heq
    cases heq
    cases h
    exact .passes hstage
  · cases h

theorem step_of_parseStage (hstage : m.stage = "parse")
    (h : parseStage m.documentId c (k, w) = some (k', w')) : Step settings m w c k k' w' := by
  unfold parseStage at h
  split at h
  · rename_i heq
    cases heq
    simp only [Option.ite_none_right_eq_some, Option.some.injEq, Prod.mk.injEq] at h
    obtain ⟨⟨hrow, hdraws, hpages⟩, rfl, rfl⟩ := h
    exact .parses hstage hrow hdraws hpages
  · cases h

theorem step_of_parseFlowStage (hstage : m.stage = "parse_flow")
    (h : parseFlowStage m.documentId c (k, w) = some (k', w')) : Step settings m w c k k' w' := by
  unfold parseFlowStage at h
  split at h
  · rename_i heq
    cases heq
    simp only [Option.ite_none_right_eq_some, Option.some.injEq, Prod.mk.injEq] at h
    obtain ⟨⟨hrow, hblocks, hdraws⟩, rfl, rfl⟩ := h
    exact .parsesFlow hstage hrow hblocks hdraws
  · cases h

theorem step_of_chunkStage (hstage : m.stage = "chunk")
    (h : chunkStage settings m.documentId c (k, w) = some (k', w')) :
    Step settings m w c k k' w' := by
  unfold chunkStage at h
  split at h
  · rename_i heq
    cases heq
    simp only [Option.ite_none_left_eq_some, Option.some.injEq, Prod.mk.injEq] at h
    obtain ⟨hblocks, rfl, rfl⟩ := h
    exact .loadsBlocks hstage hblocks
  · rename_i heq
    cases heq
    simp only [Option.ite_none_right_eq_some, Option.some.injEq, Prod.mk.injEq] at h
    obtain ⟨rfl, rfl, rfl⟩ := h
    exact .skips hstage
  · rename_i heq
    cases heq
    rw [Option.ite_none_left_eq_some] at h
    obtain ⟨hσ, h⟩ := h
    split at h
    · cases h
    · rename_i chunks hchunks
      rw [Option.ite_none_right_eq_some] at h
      obtain ⟨hdraws, h⟩ := h
      obtain ⟨db, hdb, heq⟩ := Option.map_eq_some_iff.mp h
      cases heq
      exact .stores hstage hσ hchunks hdraws hdb
  · rename_i heq
    cases heq
    cases h
    exact .chunked hstage
  · cases h

theorem step_of_contextualizeStage (hstage : m.stage = "contextualize")
    (h : contextualizeStage settings m.documentId c (k, w) = some (k', w')) :
    Step settings m w c k k' w' := by
  unfold contextualizeStage at h
  split at h
  · rename_i heq
    cases heq
    split at h
    · cases h
    · rename_i hstrategies
      rw [Option.ite_none_left_eq_some] at h
      obtain ⟨hchunks, h⟩ := h
      cases h
      exact .contextualizes hstage hstrategies hchunks
  · cases h

theorem step_of_embedStage (hstage : m.stage = "embed")
    (h : embedStage settings m.documentId c (k, w) = some (k', w')) :
    Step settings m w c k k' w' := by
  unfold embedStage at h
  split at h
  · rename_i heq
    cases heq
    cases h
    exact .embeds hstage
  · rename_i heq
    cases heq
    split at h
    · rename_i hnil
      cases h
      exact .embedsNothing hstage hnil
    · rename_i hchunks
      cases h
      exact .loadsChunks hstage hchunks
  · rename_i heq
    cases heq
    cases h
    exact .noEmbeddings hstage
  · rename_i heq
    cases heq
    cases h
    exact .clears hstage
  · rename_i heq
    cases heq
    cases h
    exact .upserts hstage
  · rename_i heq
    cases heq
    cases h
    exact .embedded hstage
  · cases h

theorem step_of_move (h : move settings m c (k, w) = some (k', w')) :
    Step settings m w c k k' w' := by
  unfold move at h
  split at h
  · rename_i hstage
    exact step_of_detectStage hstage h
  · rename_i hstage
    exact step_of_parseStage hstage h
  · rename_i hstage
    exact step_of_parseFlowStage hstage h
  · rename_i hstage
    exact step_of_chunkStage hstage h
  · rename_i hstage
    exact step_of_contextualizeStage hstage h
  · rename_i hstage
    exact step_of_embedStage hstage h
  · rename_i hdetect hparse hflow hchunk hcontextualize hembed
    have hstage : m.stage ∉ handled := by
      simp only [handled, List.mem_cons, List.not_mem_nil, or_false, not_or]
      exact ⟨hdetect, hparse, hflow, hchunk, hcontextualize, hembed⟩
    exact step_of_passStage hstage h

end

def Untouched (s : System World Execution) : Prop :=
  Initial s ∧ ∃ documents : String → Option DocStatus, (∀ d, documents d ≠ some .ready) ∧
    s.world = { db := { documents := documents } }

def oneStrategy : Settings ℚ where
  chunkStrategies := ["layout"]
  options := { countTokens := wordCount, embed := fun _ => [], breakpointPercentile := 0 }

def uploaded : System World Execution :=
  ⟨fun _ => none, fun _ => {}, { db := { documents := fun _ => some .pending } }⟩

theorem uploaded_untouched : Untouched uploaded :=
  ⟨⟨rfl, rfl⟩, fun _ => some .pending, nofun, rfl⟩

def onMessage (i : ℕ) (acts : List (Act Choice)) : List (Event Choice) := acts.map (.act "run" i)

def parsedAs (id : String) : Choice := .parsed [] [] [.paragraph "tmp-0" 0 "Hello." 0] [id]

end Ragent.StageHandlers
