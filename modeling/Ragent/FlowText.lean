import Ragent.SourceTypes

set_option autoImplicit false

/-!
# Splitting text without layout

`_emit`, `_line_spans`, `split_markdown` and `split_plain` of `ragent/ingest/flowtext.py`. The
patterns read characters only; the blocks keep the glyphs of the source.
-/
namespace Ragent.FlowText
open SpacedWords PyText SourceTypes

/-- `char_end <= char_start` raises in `__post_init__`. -/
structure FlowBlock (α : Type) where
  kind : String
  text : List α
  charStart : ℕ
  charEnd : ℕ
  sectionPath : List String := []
  nonempty : charStart < charEnd

/-- The first of each ten consecutive digits that `\d` matches in a `str` pattern. -/
def decimalZeros : List ℕ :=
  [0x30, 0x660, 0x6F0, 0x7C0, 0x966, 0x9E6, 0xA66, 0xAE6, 0xB66, 0xBE6, 0xC66, 0xCE6, 0xD66, 0xDE6,
    0xE50, 0xED0, 0xF20, 0x1040, 0x1090, 0x17E0, 0x1810, 0x1946, 0x19D0, 0x1A80, 0x1A90, 0x1B50,
    0x1BB0, 0x1C40, 0x1C50, 0xA620, 0xA8D0, 0xA900, 0xA9D0, 0xA9F0, 0xAA50, 0xABF0, 0xFF10, 0x104A0,
    0x10D30, 0x11066, 0x110F0, 0x11136, 0x111D0, 0x112F0, 0x11450, 0x114D0, 0x11650, 0x116C0,
    0x11730, 0x118E0, 0x11950, 0x11C50, 0x11D50, 0x11DA0, 0x11F50, 0x16A60, 0x16AC0, 0x16B50,
    0x1D7CE, 0x1D7D8, 0x1D7E2, 0x1D7EC, 0x1D7F6, 0x1E140, 0x1E2F0, 0x1E4F0, 0x1E950, 0x1FBF0]

def isDecimal (c : Char) : Bool :=
  decimalZeros.any fun z => z ≤ c.toNat && c.toNat < z + 10

/-- The characters `str.splitlines` breaks behind. -/
def isLineBreak (c : Char) : Bool :=
  let n := c.toNat
  (10 ≤ n && n ≤ 13) || (28 ≤ n && n ≤ 30) || n == 0x85 || n == 0x2028 || n == 0x2029

/-- What is left of a line behind `^\s*`. -/
def lstrip (line : List Char) : List Char := line.dropWhile isSpace

/-- `_FENCE_RE`, with the marker it captures. -/
def fenceOf (line : List Char) : Option (List Char) :=
  if "```".toList.isPrefixOf (lstrip line) then some "```".toList
  else if "~~~".toList.isPrefixOf (lstrip line) then some "~~~".toList
  else none

/-- `\s*#*\s*$` -/
def closesHeading (rest : List Char) : Bool :=
  (lstrip ((lstrip rest).dropWhile (· == '#'))).isEmpty

/-- The shortest `.*?` that leaves a closing sequence. -/
def headingTitle : List Char → List Char
  | [] => []
  | c :: rest => if closesHeading (c :: rest) then [] else c :: headingTitle rest

/-- `_ATX_RE`, with the level and the stripped title. -/
def headingOf (line : List Char) : Option (ℕ × String) :=
  let level := (line.takeWhile (· == '#')).length
  match line.dropWhile (· == '#') with
  | [] => none
  | c :: rest =>
    if 1 ≤ level && level ≤ 6 && isSpace c then
      some (level, String.ofList (strip (headingTitle (lstrip (c :: rest)))))
    else none

/-- `_TABLE_RE` -/
def isTableRow (line : List Char) : Bool := (lstrip line).head? == some '|'

/-- `_LIST_RE` -/
def isListItem (line : List Char) : Bool :=
  match lstrip line with
  | [] => false
  | c :: rest =>
    if c ∈ "-*+".toList then (rest.head?.map isSpace).getD false
    else
      let digits := (c :: rest).takeWhile isDecimal
      match (c :: rest).dropWhile isDecimal with
      | mark :: next :: _ =>
        !digits.isEmpty && mark ∈ ".)".toList && isSpace next
      | _ => false

def lineKind (line : List Char) : String :=
  if isTableRow line then "table" else if isListItem line then "list" else "paragraph"

section
variable {α : Type} [Glyph α]

def emit (source : List α) (start stop : ℕ) (kind : String) (sectionPath : List String) :
    Option (FlowBlock α) :=
  let raw := slice source start stop
  let lead := raw.length - (raw.dropWhile space).length
  let trail := raw.length - (raw.rdropWhile space).length
  if h : stop - trail ≤ start + lead then none
  else some
    { kind := kind
      text := strip raw
      charStart := start + lead
      charEnd := stop - trail
      sectionPath := sectionPath
      nonempty := Nat.lt_of_not_le h }

/-- `text.splitlines(keepends=True)`; a carriage return stays with the line feed behind it. -/
def splitlines : List α → List (List α)
  | [] => []
  | a :: text =>
    let c := Glyph.char a
    if isLineBreak c && !(c == '\r' && (text.head?.map Glyph.char) == some '\n') then
      [a] :: splitlines text
    else
      match splitlines text with
      | [] => [[a]]
      | line :: lines => (a :: line) :: lines

/-- `text.splitlines()`, read as characters. -/
def chompedLines (text : List α) : List (List Char) :=
  (splitlines text).map fun line => (plain line).takeWhile fun c => !isLineBreak c

/-- `_line_spans`, from the cursor on. -/
def spansOf : ℕ → List (List α) → List (ℕ × ℕ)
  | _, [] => []
  | cursor, line :: lines => (cursor, cursor + line.length) :: spansOf (cursor + line.length) lines

def lineSpans (text : List α) : List (ℕ × ℕ) := spansOf 0 (splitlines text)

structure MarkdownState (α : Type) where
  blocks : List (FlowBlock α) := []
  stack : List (ℕ × String) := []
  sectionPath : List String := []
  pendingStart : Option ℕ := none
  pendingKind : String := "paragraph"

section
variable (source : List α) (lines : List (List Char)) (spans : List (ℕ × ℕ))

def addBlock (st : MarkdownState α) (start stop : ℕ) (kind : String) : MarkdownState α :=
  { st with blocks := st.blocks ++ (emit source start stop kind st.sectionPath).toList }

/-- `flush(end_line)` -/
def flush (st : MarkdownState α) (endLine : ℕ) : MarkdownState α :=
  match st.pendingStart with
  | none => st
  | some start =>
    { addBlock source st start (spans.getD (endLine - 1) (0, 0)).2 st.pendingKind with
      pendingStart := none }

/-- `while j < len(lines) and not lines[j].strip().startswith(marker)` -/
def closingLine (marker : List Char) (j : ℕ) : ℕ :=
  j + ((lines.drop j).takeWhile fun line => !marker.isPrefixOf (strip line)).length

/-- The branch of a fence at line `i`, with the line to go on from. -/
def fenceStep (st : MarkdownState α) (i : ℕ) (marker : List Char) : ℕ × MarkdownState α :=
  let st := flush source spans st i
  let j := closingLine lines marker (i + 1)
  let close := (spans.getD (min j (lines.length - 1)) (0, 0)).2
  (j + 1, addBlock source st (spans.getD i (0, 0)).1 close "paragraph")

def headingStep (st : MarkdownState α) (i level : ℕ) (title : String) : MarkdownState α :=
  let st := flush source spans st i
  let stack := (st.stack.rdropWhile fun heading => decide (level ≤ heading.1)) ++ [(level, title)]
  let st := { st with stack := stack, sectionPath := stack.map (·.2) }
  addBlock source st (spans.getD i (0, 0)).1 (spans.getD i (0, 0)).2 "heading"

def textStep (st : MarkdownState α) (i : ℕ) (kind : String) : MarkdownState α :=
  let start := (spans.getD i (0, 0)).1
  match st.pendingStart with
  | none => { st with pendingStart := some start, pendingKind := kind }
  | some _ =>
    if kind = st.pendingKind then st
    else { flush source spans st i with pendingStart := some start, pendingKind := kind }

/-- The body of `while i < len(lines)`, with the next value of `i`. -/
def lineStep (st : MarkdownState α) (i : ℕ) : ℕ × MarkdownState α :=
  let line := lines.getD i []
  match fenceOf line, headingOf line with
  | some marker, _ => fenceStep source lines spans st i marker
  | none, some (level, title) => (i + 1, headingStep source spans st i level title)
  | none, none =>
    if (strip line).isEmpty then (i + 1, flush source spans st i)
    else (i + 1, textStep source spans st i (lineKind line))

theorem lt_lineStep (st : MarkdownState α) (i : ℕ) :
    i < (lineStep source lines spans st i).1 := by
  unfold lineStep
  simp only
  split
  · change i < i + 1 + _ + 1
    omega
  · exact Nat.lt_succ_self i
  · split_ifs
    · exact Nat.lt_succ_self i
    · exact Nat.lt_succ_self i

def markdownLoop (st : MarkdownState α) (i : ℕ) : MarkdownState α :=
  if _h : i < lines.length then
    let next := lineStep source lines spans st i
    markdownLoop next.2 next.1
  else flush source spans st lines.length
termination_by lines.length - i
decreasing_by
  have := lt_lineStep source lines spans st i
  omega

end

def splitMarkdown (text : List α) : List (FlowBlock α) :=
  (markdownLoop text (chompedLines text) (lineSpans text) {} 0).blocks

/-- The length of the match of `\n\s*\n` at the start of the text, 0 where there is none. -/
def blankLines : List Char → ℕ
  | [] => 0
  | c :: text =>
    let run := (text.takeWhile isSpace).rdropWhile (· != '\n')
    if c == '\n' && !run.isEmpty then 1 + run.length else 0

/-- `re.finditer(r"\n\s*\n", text)` at position `i`, searching from `resume` on. -/
def blankRunsFrom (i resume : ℕ) : List Char → List (ℕ × ℕ)
  | [] => []
  | c :: text =>
    let m := blankLines (c :: text)
    if resume ≤ i ∧ 0 < m then (i, i + m) :: blankRunsFrom (i + 1) (i + m) text
    else blankRunsFrom (i + 1) resume text

/-- The pieces of `re.split(r"(\n\s*\n)", text)` as ranges: texts and separators by turns. -/
def piecesOf (length : ℕ) : ℕ → List (ℕ × ℕ) → List (ℕ × ℕ)
  | cursor, [] => [(cursor, length)]
  | cursor, m :: ms => (cursor, m.1) :: m :: piecesOf length m.2 ms

/-- `re.fullmatch(r"\n\s*\n", piece)` -/
def isBlankRun (piece : List Char) : Bool :=
  piece.all isSpace && 2 ≤ piece.length && piece.head? == some '\n' && piece.getLast? == some '\n'

/-- The body of the loop in `split_plain`. -/
def plainPiece (text : List α) (piece : ℕ × ℕ) : Option (FlowBlock α) :=
  let raw := plain (slice text piece.1 piece.2)
  if raw.isEmpty || isBlankRun raw then none
  else emit text piece.1 piece.2 "paragraph" []

def splitPlain (text : List α) : List (FlowBlock α) :=
  (piecesOf text.length 0 (blankRunsFrom 0 0 (plain text))).filterMap (plainPiece text)

end
end Ragent.FlowText
