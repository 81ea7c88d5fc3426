import Ragent.BoundingBoxes
import Ragent.Decimals
import Ragent.FlowText

set_option autoImplicit false

/-!
# Native text extraction from PDF pages

`_extract_pdf` of `ragent/ingest/stages/parse.py` with the page assessment of
`ragent/ingest/classify.py`. What pypdfium2 reads off a page is given.
-/
namespace Ragent.PageExtraction
open SpacedWords PyText FlowText QuarterTurns SourceTypes BoundingBoxes

structure PageAssessment where
  confidence : ℚ
  needsOcr : Bool
  reasons : List String
  inUnit : 0 ≤ confidence ∧ confidence ≤ 1

/-- `__post_init__` clamps the confidence. -/
def pageAssessment (confidence : ℚ) (needsOcr : Bool) (reasons : List String) : PageAssessment where
  confidence := max 0 (min 1 confidence)
  needsOcr := needsOcr
  reasons := reasons
  inUnit := ⟨le_max_left _ _, max_le zero_le_one (min_le_left _ _)⟩

/-- The length of a `\(cid:\d+\)` in front of the text. -/
def cidLength : List Char → Option ℕ
  | '(' :: 'c' :: 'i' :: 'd' :: ':' :: rest =>
    let digits := (rest.takeWhile isDecimal).length
    if 0 < digits ∧ rest[digits]? = some ')' then some (digits + 6) else none
  | _ => none

/-- The characters of all matches, `skip` of them still to pass. -/
def cidCharsFrom (skip : ℕ) : List Char → ℕ
  | [] => 0
  | c :: rest =>
    if 0 < skip then cidCharsFrom (skip - 1) rest
    else match cidLength (c :: rest) with
      | some n => n + cidCharsFrom (n - 1) rest
      | none => cidCharsFrom 0 rest

def isAsciiLetter (c : Char) : Bool := ('A' ≤ c && c ≤ 'Z') || ('a' ≤ c && c ≤ 'z')

def vowels : List Char := "aeiouyAEIOUY".toList

def wordShapeScore (text : List Char) : ℚ :=
  let found := (words (fun c => !isAsciiLetter c) text).filter fun word => 2 ≤ word.length
  if found.length < 8 then 1
  else (found.filter fun word => word.any (· ∈ vowels)).length / found.length

def minCharDensity : ℚ := 35 / 100

/-- A number that is not negative, under the format `.{places}f`. -/
def fixedPoint (places : ℕ) (x : ℚ) : String :=
  let scaled := x * 10 ^ places
  let rounded := Nat.toDigits 10 (Decimals.halfEven scaled.num.natAbs scaled.den)
  let digits := rounded.leftpad (places + 1) '0'
  if places = 0 then String.ofList digits
  else String.ofList (digits.take (digits.length - places)) ++ "." ++
    String.ofList (digits.drop (digits.length - places))

/-- The format `.{places}%`. -/
def percent (places : ℕ) (x : ℚ) : String := fixedPoint places (x * 100) ++ "%"

/-- A sign of a bad text layer: if it shows, it is a reason, and its factor scales the score. -/
structure Signal where
  fires : Bool
  reason : String
  factor : ℚ

def cidSignal (text : List Char) : Signal :=
  let cidRatio : ℚ := cidCharsFrom 0 text / text.length
  { fires := cidRatio > 2 / 100
    reason := "cid_glyphs=" ++ percent 0 cidRatio
    factor := max 0 (1 - cidRatio * 3) }

def replacementSignal (text : List Char) : Signal :=
  let replacementRatio : ℚ := text.count '\uFFFD' / text.length
  { fires := replacementRatio > 5 / 1000
    reason := "replacement_chars=" ++ percent 1 replacementRatio
    factor := max 0 (1 - replacementRatio * 10) }

def densitySignal (text : List Char) (pageWidthPt pageHeightPt : ℚ) : Signal :=
  let density : ℚ := (strip text).length / (pageWidthPt * pageHeightPt / 1000)
  { fires := density < minCharDensity
    reason := "sparse_text density=" ++ fixedPoint 2 density
    factor := max (15 / 100) (density / minCharDensity) }

def shapeSignal (text : List Char) : Signal :=
  let shape := wordShapeScore text
  { fires := shape < 65 / 100
    reason := "unwordlike_text=" ++ fixedPoint 2 shape
    factor := shape }

def signals (text : List Char) (pageWidthPt pageHeightPt : ℚ) : List Signal :=
  [cidSignal text, replacementSignal text, densitySignal text pageWidthPt pageHeightPt,
    shapeSignal text]

/-- `reasons.append(...)` and `confidence *= ...`. -/
def applySignal (st : List String × ℚ) (s : Signal) : List String × ℚ :=
  if s.fires then (st.1 ++ [s.reason], st.2 * s.factor) else st

/-- `assess_text_layer`; it refuses a page without an area. -/
def assessTextLayer (text : List Char) (pageWidthPt pageHeightPt : ℚ) (threshold : ℚ := 72 / 100) :
    Option PageAssessment :=
  if pageWidthPt ≤ 0 ∨ pageHeightPt ≤ 0 then none
  else if strip text = [] then some (pageAssessment 0 true ["empty_text_layer"])
  else
    let (reasons, confidence) := (signals text pageWidthPt pageHeightPt).foldl applySignal ([], 1)
    some (pageAssessment confidence (confidence < threshold) reasons)

/-- `get_rect`. -/
structure TextRect where
  left : ℚ
  bottom : ℚ
  right : ℚ
  top : ℚ

/-- What pypdfium2 says about a page: its size and rotation, its text, and the text in a
    rectangle. -/
structure PdfPage where
  width : ℚ
  height : ℚ
  rotation : ℤ
  pageText : List Char
  rects : List TextRect
  textBounded : TextRect → List Char

structure PageRow where
  pageNo : ℤ
  widthPt : ℚ
  heightPt : ℚ
  rotation : ℤ
  textConfidence : ℚ
  needsOcr : Bool

def segment (order : ℕ) (pageNo : ℤ) (text : List Char) (box : BBox) : SourceBlock Char where
  id := "tmp-" ++ toString order
  pageNo := pageNo
  readingOrder := order
  kind := "paragraph"
  text := text
  bbox := some box
  locatable := Or.inl rfl

/-- One turn of the loop over rectangles, on `order` and `blocks`. -/
def rectStep (page : PdfPage) (pageNo : ℤ) (st : ℕ × List (SourceBlock Char)) (rect : TextRect) :
    ℕ × List (SourceBlock Char) :=
  let fragment := strip (page.textBounded rect)
  if fragment = [] then st
  else match toNormalised rect.left rect.bottom rect.right rect.top page.width page.height
      page.rotation with
    | .error _ => st
    | .ok box => (st.1 + 1, st.2 ++ [segment (st.1 + 1) pageNo fragment box])

/-- The loop over pages from page `index` on; `none` is the error of `assess_text_layer`. -/
def pagesLoop : ℕ → ℕ × List (SourceBlock Char) → List PdfPage →
    Option (List PageRow × List (SourceBlock Char))
  | _, st, [] => some ([], st.2)
  | index, st, page :: rest => do
    let assessment ← assessTextLayer page.pageText page.width page.height
    let row : PageRow := ⟨index + 1, page.width, page.height, page.rotation,
      assessment.confidence, assessment.needsOcr⟩
    let (rows, blocks) ← pagesLoop (index + 1)
      (page.rects.foldl (rectStep page (index + 1)) st) rest
    return (row :: rows, blocks)

def extractPdf (doc : List PdfPage) : Option (List PageRow × List (SourceBlock Char)) :=
  pagesLoop 0 (0, []) doc

def segmentsOf (page : PdfPage) (pageNo : ℤ) : List (ℤ × List Char × BBox) :=
  page.rects.filterMap fun rect =>
    let fragment := strip (page.textBounded rect)
    if fragment = [] then none
    else (toNormalised rect.left rect.bottom rect.right rect.top page.width page.height
      page.rotation).toOption.map fun box => (pageNo, fragment, box)

def numbered (order : ℕ) : List (ℤ × List Char × BBox) → List (SourceBlock Char)
  | [] => []
  | s :: rest => segment (order + 1) s.1 s.2.1 s.2.2 :: numbered (order + 1) rest

theorem numbered_append (order : ℕ) (ss ts : List (ℤ × List Char × BBox)) :
    numbered order (ss ++ ts) = numbered order ss ++ numbered (order + ss.length) ts := by
  induction ss generalizing order with
  | nil => rfl
  | cons s ss ih =>
    rw [List.cons_append, numbered, numbered, ih, List.length_cons, List.cons_append,
      Nat.add_right_comm order 1, Nat.add_assoc order]

theorem rects_foldl (page : PdfPage) (pageNo : ℤ) (rects : List TextRect) (order : ℕ)
    (blocks : List (SourceBlock Char)) :
    rects.foldl (rectStep page pageNo) (order, blocks) =
      (order + (segmentsOf { page with rects := rects } pageNo).length,
        blocks ++ numbered order (segmentsOf { page with rects := rects } pageNo)) := by
  induction rects generalizing order blocks with
  | nil => simp [segmentsOf, numbered]
  | cons rect rects ih =>
    rw [List.foldl_cons]
    by_cases hfragment : strip (page.textBounded rect) = []
    · rw [show rectStep page pageNo (order, blocks) rect = (order, blocks) by
        simp [rectStep, hfragment], ih]
      simp [segmentsOf, hfragment]
    · cases hbox : toNormalised rect.left rect.bottom rect.right rect.top page.width page.height
          page.rotation with
      | error e =>
        rw [show rectStep page pageNo (order, blocks) rect = (order, blocks) by
          simp [rectStep, hfragment, hbox], ih]
        simp [segmentsOf, hfragment, hbox, Except.toOption]
      | ok box =>
        rw [show rectStep page pageNo (order, blocks) rect = (order + 1,
            blocks ++ [segment (order + 1) pageNo (strip (page.textBounded rect)) box]) by
          simp [rectStep, hfragment, hbox], ih]
        simp [segmentsOf, hfragment, hbox, Except.toOption, numbered]
        omega

theorem assessTextLayer_ne_none (text : List Char) {w h : ℚ} (hw : 0 < w) (hh : 0 < h)
    (threshold : ℚ) : ∃ a, assessTextLayer text w h threshold = some a := by
  unfold assessTextLayer
  rw [if_neg (by simp [hw, hh])]
  split
  · exact ⟨_, rfl⟩
  · exact ⟨_, rfl⟩

theorem pagesLoop_blocks (doc : List PdfPage) (hsize : ∀ page ∈ doc, 0 < page.width ∧ 0 < page.height)
    (index order : ℕ) (blocks : List (SourceBlock Char)) :
    ∃ rows, pagesLoop index (order, blocks) doc = some (rows, blocks ++
      numbered order ((doc.zipIdx index).flatMap fun p => segmentsOf p.1 (p.2 + 1))) := by
  induction doc generalizing index order blocks with
  | nil => exact ⟨[], by simp [pagesLoop, numbered]⟩
  | cons page doc ih =>
    have hpage := hsize page List.mem_cons_self
    obtain ⟨a, ha⟩ := assessTextLayer_ne_none page.pageText hpage.1 hpage.2 (72 / 100)
    have hfold := rects_foldl page (index + 1) page.rects order blocks
    obtain ⟨rows, hrows⟩ := ih (fun page' hpage' => hsize page' (List.mem_cons_of_mem page hpage'))
      (index + 1) (order + (segmentsOf page (index + 1)).length)
      (blocks ++ numbered order (segmentsOf page (index + 1)))
    refine ⟨⟨index + 1, page.width, page.height, page.rotation, a.confidence, a.needsOcr⟩ :: rows, ?_⟩
    simp [pagesLoop, ha, hfold, hrows, List.zipIdx_cons, numbered_append]

theorem numbered_located (order : ℕ) (ss : List (ℤ × List Char × BBox)) :
    (numbered order ss).map (fun b => (b.pageNo, b.text, b.bbox)) =
      ss.map fun s => (s.1, s.2.1, some s.2.2) := by
  induction ss generalizing order with
  | nil => rfl
  | cons s ss ih => rw [numbered, List.map_cons, List.map_cons, ih]; rfl

/-- A page before it is turned, its origin at 0. -/
structure Sheet where
  width : ℚ
  height : ℚ
  rotation : ℤ
  width_pos : 0 < width
  height_pos : 0 < height
  rotation_mem : rotation ∈ [0, 90, 180, 270]

/-- The page as pypdfium2 shows the sheet: the size is that of the displayed page, the rectangles
    are in the coordinates of the sheet and inside it. -/
structure Shows (page : PdfPage) (s : Sheet) : Prop where
  size : (page.width, page.height) =
    if s.rotation = 90 ∨ s.rotation = 270 then (s.height, s.width) else (s.width, s.height)
  rotation : page.rotation = s.rotation
  inside : ∀ rect ∈ page.rects, rect.left ∈ Set.Icc 0 s.width ∧ rect.right ∈ Set.Icc 0 s.width ∧
    rect.bottom ∈ Set.Icc 0 s.height ∧ rect.top ∈ Set.Icc 0 s.height

def visible (r : Rect ℚ) : Option (Rect ℚ) :=
  let shown : Rect ℚ := ⟨snapped r.left, snapped r.top, snapped r.right, snapped r.bottom⟩
  if Degenerate shown then none else some shown

/-- Where the rectangle is on the displayed page. -/
def placed (s : Sheet) (rect : TextRect) : Option (Rect ℚ) :=
  visible (displayed s.width s.height rect.left rect.bottom rect.right rect.top s.rotation)

def edges (box : BBox) : Rect ℚ := ⟨box.x0, box.y0, box.x1, box.y1⟩

def placedText (page : PdfPage) (s : Sheet) (pageNo : ℤ) : List (ℤ × List Char × Rect ℚ) :=
  page.rects.filterMap fun rect =>
    let fragment := strip (page.textBounded rect)
    if fragment = [] then none else (placed s rect).map fun r => (pageNo, fragment, r)

/-- The extraction succeeds, and its blocks are the text of the pages, each piece where it is
    displayed. -/
def SitsRight (doc : List PdfPage) (sheets : List Sheet) : Prop :=
  ∃ rows blocks, extractPdf doc = some (rows, blocks) ∧
    blocks.map (fun b => (b.pageNo, b.text, b.bbox.map edges)) =
      ((doc.zip sheets).zipIdx.flatMap fun p => placedText p.1.1 p.1.2 (p.2 + 1)).map
        fun t => (t.1, t.2.1, some t.2.2)

theorem boxOf_visible (r : Rect ℚ) : (boxOf r).toOption.map edges = visible r := by
  have hshown : (⟨snapped r.left, snapped r.top, snapped r.right, snapped r.bottom⟩ : Rect ℚ) =
      clamped r := by simp only [clamped, clampUnit_eq_snapped]
  unfold visible
  simp only [hshown]
  by_cases hdegenerate : Degenerate (clamped r)
  · rw [boxOf_degenerate hdegenerate, if_pos hdegenerate]
    rfl
  · obtain ⟨box, hbox, hedges⟩ := boxOf_proper hdegenerate
    rw [hbox, if_neg hdegenerate]
    exact congrArg some hedges

theorem Sheet.quarters (s : Sheet) : 90 ∣ s.rotation := by
  have h := s.rotation_mem
  simp only [List.mem_cons, List.not_mem_nil, or_false] at h
  omega

theorem Shows.size_pos {page : PdfPage} {s : Sheet} (h : Shows page s) :
    0 < page.width ∧ 0 < page.height := by
  have hsize := h.size
  split at hsize
  · rw [(Prod.mk.inj hsize).1, (Prod.mk.inj hsize).2]
    exact ⟨s.height_pos, s.width_pos⟩
  · rw [(Prod.mk.inj hsize).1, (Prod.mk.inj hsize).2]
    exact ⟨s.width_pos, s.height_pos⟩

/-- The box `_extract_pdf` gets for a rectangle. -/
def boxed (page : PdfPage) (rect : TextRect) : Option (Rect ℚ) :=
  (toNormalised rect.left rect.bottom rect.right rect.top page.width page.height
    page.rotation).toOption.map edges

/-- `to_normalised` is told the displayed size and turns the page once more. -/
theorem Shows.box {page : PdfPage} {s : Sheet} (h : Shows page s) (rect : TextRect) :
    boxed page rect = visible (displayed page.width page.height rect.left rect.bottom rect.right
      rect.top s.rotation) := by
  unfold boxed
  rw [h.rotation, toNormalised_eq h.size_pos.1 h.size_pos.2 _ _ _ _ s.quarters, boxOf_visible]

theorem segments_of_boxed {page : PdfPage} {s : Sheet}
    (h : ∀ rect ∈ page.rects, strip (page.textBounded rect) ≠ [] → boxed page rect = placed s rect)
    (pageNo : ℤ) : (segmentsOf page pageNo).map (fun t => (t.1, t.2.1, edges t.2.2)) =
      placedText page s pageNo := by
  unfold segmentsOf placedText
  rw [List.map_filterMap]
  apply List.filterMap_congr
  intro rect hrect
  by_cases hfragment : strip (page.textBounded rect) = []
  · simp [hfragment]
  · have hbox := h rect hrect hfragment
    unfold boxed at hbox
    simp only [hfragment, ↓reduceIte, ← hbox, Option.map_map, Function.comp_def]

theorem extractPdf_located {doc : List PdfPage} {sheets : List Sheet}
    (h : List.Forall₂ Shows doc sheets) : ∃ rows blocks, extractPdf doc = some (rows, blocks) ∧
      blocks.map (fun b => (b.pageNo, b.text, b.bbox.map edges)) =
        (doc.zipIdx.flatMap fun p => (segmentsOf p.1 (p.2 + 1)).map
          fun t => (t.1, t.2.1, edges t.2.2)).map fun t => (t.1, t.2.1, some t.2.2) := by
  have hsize : ∀ page ∈ doc, 0 < page.width ∧ 0 < page.height := by
    intro page hpage
    obtain ⟨i, hi, hget⟩ := List.getElem_of_mem hpage
    exact hget ▸ (h.get (by simpa using hi) (by simpa [← h.length_eq] using hi)).size_pos
  obtain ⟨rows, hrows⟩ := pagesLoop_blocks doc hsize 0 0 []
  refine ⟨rows, _, hrows, ?_⟩
  have hlocated := congrArg (List.map fun b : ℤ × List Char × Option BBox =>
    (b.1, b.2.1, b.2.2.map edges)) (numbered_located 0
      (doc.zipIdx.flatMap fun p => segmentsOf p.1 (p.2 + 1)))
  simpa [List.map_flatMap, List.flatMap_map, Function.comp_def] using hlocated

theorem sitsRight_of_segments {doc : List PdfPage} {sheets : List Sheet}
    (h : List.Forall₂ (fun page s => Shows page s ∧ ∀ pageNo,
      (segmentsOf page pageNo).map (fun t => (t.1, t.2.1, edges t.2.2)) =
        placedText page s pageNo) doc sheets) : SitsRight doc sheets := by
  obtain ⟨rows, blocks, hextract, hblocks⟩ :=
    extractPdf_located (h.imp fun page s hpage => hpage.1)
  refine ⟨rows, blocks, hextract, hblocks.trans (congrArg _ ?_)⟩
  clear hblocks hextract
  generalize (0 : ℕ) = index
  induction h generalizing index with
  | nil => rfl
  | cons hpage h ih =>
    rw [List.zipIdx_cons, List.zip_cons_cons, List.zipIdx_cons, List.flatMap_cons,
      List.flatMap_cons, hpage.2, ih (index + 1)]

theorem sitsRight_of_straight {doc : List PdfPage} {sheets : List Sheet}
    (h : List.Forall₂ Shows doc sheets)
    (hstraight : ∀ s ∈ sheets, s.rotation = 0 ∨ s.rotation = 180 ∨ s.width = s.height) :
    SitsRight doc sheets := by
  apply sitsRight_of_segments
  have hboth := ((List.forall₂_and_left _ _).mpr ⟨hstraight, h.flip⟩).flip
  refine hboth.imp fun page s hpage => ⟨hpage.2, segments_of_boxed fun rect _ _ => ?_⟩
  have hsize : page.width = s.width ∧ page.height = s.height := by
    have hsize := hpage.2.size
    by_cases hside : s.rotation = 90 ∨ s.rotation = 270
    · have hsquare : s.width = s.height :=
        (hpage.1.resolve_left (by omega)).resolve_left (by omega)
      rw [if_pos hside] at hsize
      rw [(Prod.mk.inj hsize).1, (Prod.mk.inj hsize).2, hsquare]
      exact ⟨rfl, rfl⟩
    · rw [if_neg hside] at hsize
      exact Prod.mk.inj hsize
  rw [hpage.2.box rect, hsize.1, hsize.2]
  rfl

def middlePage (s : Sheet) : PdfPage where
  width := if s.rotation = 90 ∨ s.rotation = 270 then s.height else s.width
  height := if s.rotation = 90 ∨ s.rotation = 270 then s.width else s.height
  rotation := s.rotation
  pageText := ['x']
  rects := [⟨s.width / 4, s.height / 4, s.width / 2, s.height / 2⟩]
  textBounded := fun _ => ['x']

theorem middlePage_shows (s : Sheet) : Shows (middlePage s) s where
  size := by
    unfold middlePage
    split <;> rfl
  rotation := rfl
  inside := by
    intro rect hrect
    have hw := s.width_pos
    have hh := s.height_pos
    cases List.mem_singleton.mp hrect
    refine ⟨⟨?_, ?_⟩, ⟨?_, ?_⟩, ⟨?_, ?_⟩, ?_, ?_⟩ <;> dsimp only <;> linarith

theorem eq_of_snapped {v c : ℚ} (h : snapped v = c) (h0 : c ≠ 0) (h1 : c ≠ 1) : v = c := by
  rw [← clampUnit_eq_snapped] at h
  unfold clampUnit at h
  split at h
  · exact absurd h.symm h0
  · split at h
    · exact absurd h.symm h1
    · exact h

theorem left_of_visible {r r' : Rect ℚ} (h : visible r = some r') : snapped r.left = r'.left := by
  unfold visible at h
  dsimp only at h
  split at h
  · cases h
  · cases h
    rfl

theorem displayed_on_its_side {w h : ℚ} (hw : 0 < w) (hh : 0 < h) {w' h' : ℚ} (hw' : 0 < w')
    (hh' : 0 < h') {rotation : ℤ} (hside : rotation = 90 ∨ rotation = 270) :
    displayed w h (w' / 4) (h' / 4) (w' / 2) (h' / 2) rotation =
      if rotation = 90 then ⟨h' / 4 / h, w' / 4 / w, h' / 2 / h, w' / 2 / w⟩
      else ⟨(h - h' / 2) / h, (w - w' / 2) / w, (h - h' / 4) / h, (w - w' / 4) / w⟩ := by
  have hx : w' / 4 ≤ w' / 2 := by linarith
  have hy : h' / 4 ≤ h' / 2 := by linarith
  rcases hside with hrotation | hrotation
  · simp [hrotation, displayed, Rect.spanned, Rect.turned, min_eq_left hx, max_eq_right hx,
      min_eq_left hy, max_eq_right hy, one_sub_div hh]
  · simp [hrotation, displayed, Rect.spanned, Rect.turned, min_eq_left hx, max_eq_right hx,
      min_eq_left hy, max_eq_right hy, one_sub_div hh, one_sub_div hw]

/-- Read against the swapped size, the middle of a page that is not square is somewhere else. -/
theorem middle_misplaced {s : Sheet} (hside : s.rotation = 90 ∨ s.rotation = 270)
    (hsize : s.width ≠ s.height) : ∃ r, placed s ⟨s.width / 4, s.height / 4, s.width / 2,
      s.height / 2⟩ = some r ∧
    visible (displayed s.height s.width (s.width / 4) (s.height / 4) (s.width / 2) (s.height / 2)
      s.rotation) ≠ some r := by
  have hw := s.width_pos
  have hh := s.height_pos
  have hright := displayed_on_its_side hw hh hw hh hside
  have hwrong := displayed_on_its_side hh hw hw hh hside
  rcases hside with hrotation | hrotation
  · rw [if_pos hrotation] at hright hwrong
    have hplace : displayed s.width s.height (s.width / 4) (s.height / 4) (s.width / 2)
        (s.height / 2) s.rotation = ⟨1 / 4, 1 / 4, 1 / 2, 1 / 2⟩ := by
      rw [hright, Rect.mk.injEq]
      refine ⟨?_, ?_, ?_, ?_⟩ <;> field_simp
    refine ⟨⟨1 / 4, 1 / 4, 1 / 2, 1 / 2⟩, ?_, ?_⟩
    · unfold placed
      rw [hplace]
      decide +kernel
    · intro hsame
      have hleft := eq_of_snapped (left_of_visible hsame) (by norm_num) (by norm_num)
      rw [hwrong] at hleft
      dsimp only at hleft
      field_simp at hleft
      exact hsize hleft.symm
  · have hturned : s.rotation ≠ 90 := by omega
    rw [if_neg hturned] at hright hwrong
    have hplace : displayed s.width s.height (s.width / 4) (s.height / 4) (s.width / 2)
        (s.height / 2) s.rotation = ⟨1 / 2, 1 / 2, 3 / 4, 3 / 4⟩ := by
      rw [hright, Rect.mk.injEq]
      refine ⟨?_, ?_, ?_, ?_⟩ <;> field_simp <;> norm_num
    refine ⟨⟨1 / 2, 1 / 2, 3 / 4, 3 / 4⟩, ?_, ?_⟩
    · unfold placed
      rw [hplace]
      decide +kernel
    · intro hsame
      have hleft := eq_of_snapped (left_of_visible hsame) (by norm_num) (by norm_num)
      rw [hwrong] at hleft
      dsimp only at hleft
      field_simp at hleft
      exact hsize (by linarith)

theorem placedText_middlePage {s : Sheet} {r : Rect ℚ} (h : placed s ⟨s.width / 4, s.height / 4,
    s.width / 2, s.height / 2⟩ = some r) (pageNo : ℤ) :
    placedText (middlePage s) s pageNo = [(pageNo, ['x'], r)] := by
  have hstrip : strip ['x'] = ['x'] := rfl
  simp [placedText, middlePage, h, hstrip]

theorem pageNo_of_mem_segmentsOf {page : PdfPage} {pageNo : ℤ} {t : ℤ × List Char × BBox}
    (h : t ∈ segmentsOf page pageNo) : t.1 = pageNo := by
  obtain ⟨rect, -, ht⟩ := List.mem_filterMap.mp h
  dsimp only at ht
  split at ht
  · cases ht
  · obtain ⟨box, -, ht⟩ := Option.map_eq_some_iff.mp ht
    subst ht
    rfl

theorem mem_segmentsOf_middlePage {s : Sheet} (hside : s.rotation = 90 ∨ s.rotation = 270)
    {pageNo : ℤ} {t : ℤ × List Char × BBox} (h : t ∈ segmentsOf (middlePage s) pageNo) :
    visible (displayed s.height s.width (s.width / 4) (s.height / 4) (s.width / 2)
      (s.height / 2) s.rotation) = some (edges t.2.2) := by
  obtain ⟨rect, hrect, ht⟩ := List.mem_filterMap.mp h
  have hbox := (middlePage_shows s).box rect
  cases List.mem_singleton.mp hrect
  have hsize : (middlePage s).width = s.height ∧ (middlePage s).height = s.width := by
    simp [middlePage, hside]
  dsimp only at ht
  split at ht
  · cases ht
  · obtain ⟨box, hbox', ht⟩ := Option.map_eq_some_iff.mp ht
    unfold boxed at hbox
    rw [hbox', hsize.1, hsize.2] at hbox
    subst ht
    exact hbox.symm

/-- Where the document whose pages all have a word in the middle sits right, so does that word. -/
theorem straight_of_sitsRight {sheets : List Sheet}
    (h : SitsRight (sheets.map middlePage) sheets) {s : Sheet} (hs : s ∈ sheets) :
    s.rotation = 0 ∨ s.rotation = 180 ∨ s.width = s.height := by
  by_contra hstraight
  rw [not_or, not_or] at hstraight
  have hside : s.rotation = 90 ∨ s.rotation = 270 := by
    have hmem := s.rotation_mem
    simp only [List.mem_cons, List.not_mem_nil, or_false] at hmem
    omega
  obtain ⟨r, hr, hne⟩ := middle_misplaced hside hstraight.2.2
  obtain ⟨i, hi, hget⟩ := List.getElem_of_mem hs
  have hshows : List.Forall₂ Shows (sheets.map middlePage) sheets := by
    rw [List.forall₂_map_left_iff]
    exact List.forall₂_same.mpr fun s _ => middlePage_shows s
  obtain ⟨rows, blocks, hextract, hright⟩ := h
  obtain ⟨rows', blocks', hextract', hcode⟩ := extractPdf_located hshows
  rw [hextract] at hextract'
  obtain ⟨hrows, hblocks⟩ := Prod.mk.inj (Option.some.inj hextract')
  rw [← hblocks, hright] at hcode
  have hmem : (((i : ℤ) + 1, ['x'], some r) : ℤ × List Char × Option (Rect ℚ)) ∈
      (((sheets.map middlePage).zip sheets).zipIdx.flatMap fun p =>
        placedText p.1.1 p.1.2 (p.2 + 1)).map fun t => (t.1, t.2.1, some t.2.2) := by
    apply List.mem_map.mpr
    refine ⟨((i : ℤ) + 1, ['x'], r), List.mem_flatMap.mpr ⟨((middlePage s, s), i), ?_, ?_⟩, rfl⟩
    · apply List.mem_zipIdx_iff_getElem?.mpr
      simp [hi, hget]
    · rw [placedText_middlePage hr]
      exact List.mem_singleton_self _
  rw [hcode, List.mem_map] at hmem
  obtain ⟨located, hlocated, hsame⟩ := hmem
  obtain ⟨p, hp, hsegment⟩ := List.mem_flatMap.mp hlocated
  obtain ⟨t, ht, hedges⟩ := List.mem_map.mp hsegment
  subst hedges
  simp only [Prod.mk.injEq, Option.some.injEq] at hsame
  have hpageNo := pageNo_of_mem_segmentsOf ht
  have hindex : p.2 = i := by omega
  have hpage := List.mem_zipIdx_iff_getElem?.mp hp
  rw [hindex, List.getElem?_map, List.getElem?_eq_getElem hi, hget] at hpage
  rw [← Option.some.inj hpage] at ht
  exact hne ((mem_segmentsOf_middlePage hside ht).trans (congrArg some hsame.2.2))

/-- The blocks of every document with these sheets sit where the viewer draws them exactly if no
    sheet that is not square is displayed on its side. -/
theorem boxes_sit_right_iff (sheets : List Sheet) :
    (∀ doc, List.Forall₂ Shows doc sheets → SitsRight doc sheets) ↔
      ∀ s ∈ sheets, s.rotation = 0 ∨ s.rotation = 180 ∨ s.width = s.height := by
  constructor
  · intro h s hs
    have hshows : List.Forall₂ Shows (sheets.map middlePage) sheets := by
      rw [List.forall₂_map_left_iff]
      exact List.forall₂_same.mpr fun s _ => middlePage_shows s
    exact straight_of_sitsRight (h _ hshows) hs
  · intro hstraight doc h
    exact sitsRight_of_straight h hstraight

def turnedSheet : Sheet := ⟨600, 800, 90, by norm_num, by norm_num, by simp⟩

def turnedPage : PdfPage := ⟨800, 600, 90, ['x'], [⟨60, 80, 120, 160⟩], fun _ => ['x']⟩

/-- On a portrait page that is turned once, a word a tenth from both edges of the displayed page
    gets another box. -/
theorem turned_word_is_misplaced :
    Shows turnedPage turnedSheet ∧ ¬ SitsRight [turnedPage] [turnedSheet] ∧
    placedText turnedPage turnedSheet 1 = [(1, ['x'], ⟨1 / 10, 1 / 10, 1 / 5, 1 / 5⟩)] ∧
    (extractPdf [turnedPage]).map (fun doc => doc.2.map fun b => (b.pageNo, b.text, b.bbox.map edges)) =
      some [(1, ['x'], some ⟨2 / 15, 3 / 40, 4 / 15, 3 / 20⟩)] := by
  have hcode : (extractPdf [turnedPage]).map
      (fun doc => doc.2.map fun b => (b.pageNo, b.text, b.bbox.map edges)) =
        some [(1, ['x'], some ⟨2 / 15, 3 / 40, 4 / 15, 3 / 20⟩)] := by decide +kernel
  refine ⟨⟨by decide +kernel, by decide +kernel, ?_⟩, ?_, by decide +kernel, hcode⟩
  · intro rect hrect
    cases List.mem_singleton.mp hrect
    norm_num [turnedSheet]
  · intro hright
    obtain ⟨rows, blocks, hextract, hblocks⟩ := hright
    rw [hextract, Option.map_some, Option.some.injEq, hblocks] at hcode
    exact absurd hcode (by decide +kernel)

end Ragent.PageExtraction
