import Ragent.FixedChunks
import Ragent.LayoutChunks
import Ragent.RecursiveChunks
import Ragent.SemanticChunks

set_option autoImplicit false

/-!
# Dispatch over the strategies

`STRATEGIES` and `chunk_document` of `ragent/ingest/chunking.py`.
-/
namespace Ragent.ChunkDocument
open SpacedWords PyText PyNumbers SourceTypes FlattenedDocument FixedChunks RecursiveChunks
  LayoutChunks SemanticChunks

/-- The keyword arguments of the strategies; `embed` and `breakpointPercentile` are read by the
    semantic one only, `overlapTokens` by the three others. -/
structure ChunkOptions (F : Type) where
  targetTokens : ℤ := 512
  overlapTokens : ℤ := 64
  countTokens : TokenCounter
  embed : List (List Char) → List (List F)
  breakpointPercentile : F

inductive Strategy
  | fixed
  | recursive
  | layout
  | semantic
  deriving DecidableEq

/-- The keys of `STRATEGIES`. -/
def strategyOf : String → Option Strategy
  | "fixed" => some .fixed
  | "recursive" => some .recursive
  | "layout" => some .layout
  | "semantic" => some .semantic
  | _ => none

section
variable {α F : Type} [Glyph α] [PyFloat F]

def chunkWith (strategy : Strategy) (blocks : List (SourceBlock α)) (o : ChunkOptions F) :
    Except PyException (List (Chunk α)) :=
  match strategy with
  | .fixed => .ok (chunkFixed F o.countTokens o.targetTokens o.overlapTokens blocks)
  | .recursive => .ok (chunkRecursive o.countTokens o.targetTokens o.overlapTokens blocks)
  | .layout => .ok (chunkLayout o.countTokens o.targetTokens o.overlapTokens blocks)
  | .semantic => chunkSemantic o.countTokens o.targetTokens o.embed o.breakpointPercentile blocks

def chunkDocument (strategy : String) (blocks : List (SourceBlock α)) (o : ChunkOptions F) :
    Except PyException (List (Chunk α)) :=
  match strategyOf strategy with
  | some fn => chunkWith fn blocks o
  | none => .error (.valueError (s!"unknown chunking strategy {strategy.quote}; " ++
      "expected one of ['fixed', 'layout', 'recursive', 'semantic']"))

theorem chunkDocument_eq_ok {strategy : String} {blocks : List (SourceBlock α)}
    {o : ChunkOptions F} {chunks : List (Chunk α)} (h : chunkDocument strategy blocks o = .ok chunks) :
    ∃ fn, strategyOf strategy = some fn ∧ chunkWith fn blocks o = .ok chunks := by
  unfold chunkDocument at h
  cases hfn : strategyOf strategy with
  | none =>
    rw [hfn] at h
    cases h
  | some fn =>
    rw [hfn] at h
    exact ⟨fn, rfl, h⟩

end
end Ragent.ChunkDocument
