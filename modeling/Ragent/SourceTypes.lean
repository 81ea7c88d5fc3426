import Mathlib.Algebra.Order.Field.Rat
import Ragent.PyText

set_option autoImplicit false

/-!
# Value objects of the ingest pipeline

`ragent/ingest/types.py`. The text of a block or a chunk is a sequence of glyphs.
-/
namespace Ragent.SourceTypes
open SpacedWords PyText

abbrev TokenCounter := List Char → ℤ

def CountsWords (countTokens : TokenCounter) : Prop :=
  ∀ text, words isSpace text ≠ [] → 1 ≤ countTokens text

def wordCount : TokenCounter := fun text => (words isSpace text).length

theorem wordCount_countsWords : CountsWords wordCount := by
  intro text h
  have hpos := List.length_pos_iff.mpr h
  unfold wordCount
  omega

/-- Top-left origin, normalised to 0..1; `__post_init__` refuses anything else. -/
structure BBox where
  x0 : ℚ
  y0 : ℚ
  x1 : ℚ
  y1 : ℚ
  nondegenerate : x0 < x1 ∧ y0 < y1
  inside : 0 ≤ x0 ∧ 0 ≤ y0 ∧ x1 ≤ 1 ∧ y1 ≤ 1

/-- One block of a document. `char_start` and `char_end` are filled together, and a block with
    neither a bbox nor a char range cannot be built. -/
structure SourceBlock (α : Type) where
  id : String
  pageNo : ℤ
  readingOrder : ℤ
  kind : String
  text : List α
  bbox : Option BBox := none
  charRange : Option (ℕ × ℕ) := none
  sectionPath : List String := []
  locatable : bbox.isSome ∨ charRange.isSome

namespace SourceBlock
variable {α β : Type}

def isPaged (b : SourceBlock α) : Bool := b.bbox.isSome

def isAtomic (b : SourceBlock α) : Bool := b.kind ∈ ["table", "figure"]

def isBoundary (b : SourceBlock α) : Bool := b.kind ∈ ["title", "heading"]

def isFurniture (b : SourceBlock α) : Bool := b.kind ∈ ["header", "footer", "page_number"]

def withText (b : SourceBlock α) (text : List β) : SourceBlock β where
  id := b.id
  pageNo := b.pageNo
  readingOrder := b.readingOrder
  kind := b.kind
  text := text
  bbox := b.bbox
  charRange := b.charRange
  sectionPath := b.sectionPath
  locatable := b.locatable

def erase [Glyph α] (b : SourceBlock α) : SourceBlock Char := b.withText (plain b.text)

def paragraph (id : String) (order : ℤ) (text : String) (start : ℕ) : SourceBlock Char where
  id := id
  pageNo := 0
  readingOrder := order
  kind := "paragraph"
  text := text.toList
  charRange := some (start, start + text.toList.length)
  locatable := Or.inr rfl

end SourceBlock

/-- A retrievable unit, still carrying the blocks it was built from. `atomic` is the only key of
    `meta` that is read again: the kind of the table or figure a layout chunk consists of. -/
structure Chunk (α : Type) where
  seq : ℕ
  text : List α
  blockIds : List String
  tokenCount : ℤ
  pageFrom : Option ℤ := none
  pageTo : Option ℤ := none
  charStart : Option ℕ := none
  charEnd : Option ℕ := none
  sectionPath : List String := []
  contextPrefix : Option (List Char) := none
  strategy : String := "layout"
  atomic : Option String := none

namespace Chunk
variable {α : Type}

def erase [Glyph α] (c : Chunk α) : Chunk Char where
  seq := c.seq
  text := plain c.text
  blockIds := c.blockIds
  tokenCount := c.tokenCount
  pageFrom := c.pageFrom
  pageTo := c.pageTo
  charStart := c.charStart
  charEnd := c.charEnd
  sectionPath := c.sectionPath
  contextPrefix := c.contextPrefix
  strategy := c.strategy
  atomic := c.atomic

end Chunk
end Ragent.SourceTypes
