import Ragent.Utf16

set_option autoImplicit false

/-!
# The highlight of a flow citation

`FlowHighlight` of `web/components/CitationViewer.tsx`. The offsets of a citation count code points,
as `ragent/ingest/flowtext.py` records them; `text.slice` counts the 16-bit units of a JavaScript
string.
-/
namespace Ragent.CitationViewer
open SpacedWords

def PAD : ℕ := 2000

structure Highlight where
  ellipsisBefore : Bool
  before : List UInt16
  mark : List UInt16
  after : List UInt16
  ellipsisAfter : Bool
  deriving DecidableEq

/-- `none` where the text is rendered without a mark. -/
def flowHighlight (text : List UInt16) (charStart charEnd : Option ℕ) : Option Highlight :=
  let start := charStart.getD 0
  let stop := charEnd.getD 0
  if stop ≤ start then none
  else
    let first := start - PAD
    let last := min text.length (stop + PAD)
    some
      { ellipsisBefore := 0 < first
        before := slice text first start
        mark := slice text start stop
        after := slice text stop last
        ellipsisAfter := last < text.length }

/-- The string `document_text` sends, as the browser holds it, with a range of code points marked in
    it. -/
def marked (text : List Char) (s e : ℕ) : Option (List UInt16) :=
  (flowHighlight (Utf16.encode text) (some s) (some e)).map (·.mark)

theorem marked_eq (text : List Char) {s e : ℕ} (hs : s < e) :
    marked text s e = some (slice (Utf16.encode text) s e) := by
  unfold marked flowHighlight
  simp only [Option.getD_some, if_neg (Nat.not_le_of_lt hs), Option.map_some]

/-- In a text without characters beyond U+FFFF up to the end of the range the mark holds it. -/
theorem mark_of_narrow {text : List Char} {s e : ℕ} (hs : s < e) (he : e ≤ text.length)
    (hnarrow : ∀ c ∈ text.take e, Utf16.wide c = false) :
    marked text s e = some (Utf16.encode (slice text s e)) := by
  have hzero : (text.take s).countP Utf16.wide = 0 := by
    rw [List.countP_eq_zero]
    intro c hc
    simp [hnarrow c (List.take_subset_take_left text hs.le hc)]
  rw [marked_eq text hs, Option.some.injEq]
  apply (Utf16.slice_encode_eq_iff hs.le he).mpr
  refine ⟨fun c hc => hnarrow c (List.mem_of_mem_drop hc), fun i _ _ => ?_⟩
  rw [hzero, Nat.add_zero]

/-- The mark holds the range exactly if no character beyond U+FFFF stands in it, and those before it
    shift it along a repetition. -/
theorem mark_is_range_iff {text : List Char} {s e : ℕ} (hs : s < e) (he : e ≤ text.length) :
    marked text s e = some (Utf16.encode (slice text s e)) ↔
      (∀ c ∈ slice text s e, Utf16.wide c = false) ∧
        ∀ i, s ≤ i → i < e → (Utf16.encode text)[i]? =
          (Utf16.encode text)[i + (text.take s).countP Utf16.wide]? := by
  rw [marked_eq text hs, Option.some.injEq]
  exact Utf16.slice_encode_eq_iff hs.le he

/-- The mark of a whole text stops short of its last character. -/
theorem emoji_cuts_the_mark :
    ¬ ∀ (text : List Char) (s e : ℕ), s < e → e ≤ text.length →
      marked text s e = some (Utf16.encode (slice text s e)) := by
  intro hall
  exact absurd (hall "😀 hi".toList 0 4 (by decide) (by decide)) (by decide)

def trailingOff : List Char := "😀 ... 😀".toList

/-- The first character shifts the mark from one dot to the next. -/
theorem last_dots_are_marked :
    marked trailingOff 3 5 = some (Utf16.encode (slice trailingOff 3 5)) := by
  have hnarrow : (slice trailingOff 3 5).all (fun c => !Utf16.wide c) = true := by decide
  apply (mark_is_range_iff (by decide) (by decide)).mpr
  constructor
  · intro c hc
    simpa using List.all_eq_true.mp hnarrow c hc
  · decide

end Ragent.CitationViewer
