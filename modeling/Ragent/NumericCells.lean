import Ragent.Decimals
import Ragent.FlowText

set_option autoImplicit false

/-!
# Numbers in table cells

`ragent/ingest/numeric.py`. A text is a list of code points. Of the compatibility normalisation only
what it does to the characters of such cells is known.
-/
namespace Ragent.NumericCells
open SpacedWords PyText FlowText Decimals

/-- The first and the last of each range of characters that are digits but not decimal ones. -/
def digitRanges : List (ℕ × ℕ) :=
  [(0xB2, 0xB3), (0xB9, 0xB9), (0x1369, 0x1371), (0x19DA, 0x19DA), (0x2070, 0x2070),
    (0x2074, 0x2079), (0x2080, 0x2089), (0x2460, 0x2468), (0x2474, 0x247C), (0x2488, 0x2490),
    (0x24EA, 0x24EA), (0x24F5, 0x24FD), (0x24FF, 0x24FF), (0x2776, 0x277E), (0x2780, 0x2788),
    (0x278A, 0x2792), (0x10A40, 0x10A43), (0x10E60, 0x10E68), (0x11052, 0x1105A),
    (0x1F100, 0x1F10A)]

/-- `str.isdigit` of one character. -/
def isDigit (c : Char) : Bool :=
  isDecimal c || digitRanges.any fun r => r.1 ≤ c.toNat && c.toNat ≤ r.2

def nullTokens : List (List Char) :=
  ["", "-", "--", "—", "–", "‒", "―", "n/a", "na", "n.a.", "nm", "n.m.", "nil", "none", "*"].map
    (·.toList)

def currency : List Char := "$€£¥₹".toList

def isPad (c : Char) : Bool := c ∈ currency || c == ' '

/-- `_SUPERSCRIPTS` -/
def isSuperscript (c : Char) : Bool :=
  c ∈ ['¹', '²', '³'] || (0x2070 ≤ c.toNat && c.toNat < 0x207A)

def superscriptDigits : List (Char × Char) :=
  [('⁰', '0'), ('¹', '1'), ('²', '2'), ('³', '3'), ('⁴', '4'), ('⁵', '5'), ('⁶', '6'), ('⁷', '7'),
    ('⁸', '8'), ('⁹', '9')]

def isAscii (c : Char) : Bool := c.toNat < 128

/-- `unicodedata.normalize("NFKC", ·)`: ASCII, the currency symbols and the minus sign are stable,
    superscript digits become digits. -/
structure Nfkc where
  normalize : List Char → List Char
  folds : ∀ text, (∀ c ∈ text, isAscii c ∨ c ∈ currency ∨ c = '−' ∨
    (superscriptDigits.lookup c).isSome) →
    normalize text = text.map fun c => (superscriptDigits.lookup c).getD c

def Nfkc.folding : Nfkc where
  normalize text := text.map fun c => (superscriptDigits.lookup c).getD c
  folds _ _ := rfl

/-- `text.lower()`, as far as it can matter to tokens of ASCII letters. -/
def lower (text : List Char) : List Char := text.map Char.toLower

def isNull (text : List Char) : Bool := nullTokens.contains (lower text)

/-- What is in front of the match of `_FOOTNOTE_RE`. -/
def footnoteHead (text : List Char) : Option (List Char) :=
  match text.reverse.dropWhile isSpace with
  | close :: rest =>
    let digits := (rest.dropWhile isSpace).takeWhile isDecimal
    match ((rest.dropWhile isSpace).dropWhile isDecimal).dropWhile isSpace with
    | mark :: head =>
      if close ∈ ")]\x7d".toList ∧ 1 ≤ digits.length ∧ digits.length ≤ 2 ∧ mark ∈ "([\x7b".toList
      then some head.reverse else none
    | [] => none
  | [] => none

theorem footnoteHead_length {text head : List Char} (h : footnoteHead text = some head) :
    head.length < text.length := by
  unfold footnoteHead at h
  have hdrop := (List.dropWhile_suffix isSpace (l := text.reverse)).sublist.length_le
  split at h
  · next close rest hrest =>
    have hspace := (List.dropWhile_suffix isSpace (l := rest)).sublist.length_le
    have hdigits := (List.dropWhile_suffix isDecimal (l := rest.dropWhile isSpace)).sublist.length_le
    have hinner := (List.dropWhile_suffix isSpace
      (l := (rest.dropWhile isSpace).dropWhile isDecimal)).sublist.length_le
    dsimp only at h
    split at h
    · next mark tail htail =>
      split at h
      · cases h
        rw [hrest, List.length_cons, List.length_reverse] at hdrop
        rw [htail, List.length_cons] at hinner
        rw [List.length_reverse]
        omega
      · cases h
    · cases h
  · cases h

theorem rstrip_length_le (text : List Char) : (text.rdropWhile isSpace).length ≤ text.length :=
  (List.rdropWhile_prefix isSpace text).sublist.length_le

def stripFootnotes (text : List Char) : List Char × Bool :=
  match _h : footnoteHead text with
  | none => (text, false)
  | some head =>
    if head.any isDigit then ((stripFootnotes (head.rdropWhile isSpace)).1, true) else (text, false)
termination_by text.length
decreasing_by
  have hhead := footnoteHead_length _h
  have hstrip := rstrip_length_le head
  omega

/-- `raw_stripped.rstrip(_SUPERSCRIPTS + " ")` -/
def withoutSuperscript (rawStripped : List Char) : List Char :=
  rawStripped.rdropWhile fun c => isSuperscript c || c == ' '

/-- What the two replacements do. -/
def replaced (c : Char) : Char := if c = '\u00A0' then ' ' else if c = '−' then '-' else c

def normalised (nfkc : Nfkc) (text : List Char) : List Char :=
  strip ((nfkc.normalize text).map replaced)

/-- The percent sign, or the unit of basis points, and what is in front of it. -/
def takeSuffix (text : List Char) : Bool × List Char :=
  if text.getLast? = some '%' then (true, strip text.dropLast)
  else if "bps".toList.isSuffixOf (lower text) then (false, strip (text.take (text.length - 3)))
  else if "bp".toList.isSuffixOf (lower text) then (false, strip (text.take (text.length - 2)))
  else (false, text)

/-- The loop over enclosing parentheses, each of which changes the sign. -/
def peel (isNegative : Bool) (inner : List Char) : Bool × List Char :=
  match inner with
  | c :: rest =>
    if c = '(' ∧ rest.getLast? = some ')' then peel (!isNegative) (strip rest.dropLast)
    else (isNegative, inner)
  | [] => (isNegative, inner)
termination_by inner.length
decreasing_by
  have hstrip : (strip rest.dropLast).length ≤ rest.dropLast.length :=
    ((List.rdropWhile_prefix _ _).sublist.trans (List.dropWhile_suffix _).sublist).length_le
  rw [List.length_dropLast] at hstrip
  rw [List.length_cons]
  omega

def takeSign (isNegative : Bool) (inner : List Char) : Bool × List Char :=
  match inner with
  | '-' :: rest => (!isNegative, strip rest)
  | '+' :: rest => (isNegative, strip rest)
  | _ => (isNegative, inner)

/-- `re.sub(r"(?i)x$", "", text)`; `$` also matches in front of a final line feed. -/
def dropMultiple (text : List Char) : List Char :=
  match text.reverse with
  | 'x' :: rest | 'X' :: rest => rest.reverse
  | '\n' :: 'x' :: rest | '\n' :: 'X' :: rest => ('\n' :: rest).reverse
  | _ => text

def cleaned (inner : List Char) : List Char :=
  dropMultiple ((trim isPad inner).filter fun c => c != ',' && c != ' ')

/-- `re.fullmatch(r"\d*\.?\d+|\d+\.", text)` -/
def isNumeral (text : List Char) : Bool :=
  match text.dropWhile isDecimal with
  | [] => !text.isEmpty
  | c :: fraction =>
    c == '.' && fraction.all isDecimal && !((text.takeWhile isDecimal).isEmpty && fraction.isEmpty)

def digitValue (c : Char) : ℕ :=
  ((decimalZeros.find? fun z => z ≤ c.toNat && c.toNat < z + 10).map (c.toNat - ·)).getD 0

/-- `Decimal(text)` of a numeral. -/
def decimalOf (text : List Char) : Decimal where
  negative := false
  coefficient := (text.filter isDecimal).foldl (fun n c => 10 * n + digitValue c) 0
  exponent := -((text.dropWhile isDecimal).tail.length : ℤ)

/-- The default context of the module `decimal`. -/
def defaultContext : Context := ⟨28, -999999, 999999, by norm_num, by norm_num⟩

structure ParsedNumber where
  value : Decimal
  isPercent : Bool := false
  isNegative : Bool := false
  hadFootnote : Bool := false
  deriving DecidableEq

structure Cell where
  numeral : List Char
  isPercent : Bool
  isNegative : Bool
  hadFootnote : Bool
  deriving DecidableEq

/-- The sign and the cleaned numeral of what is left when footnotes and suffix are gone. -/
def readNumber (text : List Char) : Bool × List Char :=
  let outer := text.dropWhile isPad
  let peeled := peel false outer
  let signed := takeSign peeled.1 peeled.2
  (signed.1, cleaned signed.2)

/-- The steps from the normalised text to the numeral. -/
def readCell (hadSuperscript : Bool) (text : List Char) : Option Cell :=
  if isNull text then none
  else
    let body := strip (stripFootnotes text).1
    if body.isEmpty || isNull body then none
    else
      let number := readNumber (takeSuffix body).2
      if number.2.isEmpty || !number.2.any isDigit then none
      else if !isNumeral number.2 then none
      else some ⟨number.2, (takeSuffix body).1, number.1, hadSuperscript || (stripFootnotes text).2⟩

/-- `decimal.Overflow` is not caught. -/
def numberOf (cell : Cell) : Except Signal ParsedNumber := do
  let value ←
    if cell.isNegative then defaultContext.minus (decimalOf cell.numeral)
    else .ok (decimalOf cell.numeral)
  return ⟨value, cell.isPercent, cell.isNegative, cell.hadFootnote⟩

def parseNumeric (nfkc : Nfkc) (raw : Option (List Char)) : Except Signal (Option ParsedNumber) :=
  match raw with
  | none => .ok none
  | some raw =>
    let rawStripped := strip raw
    let withoutSuperscript := withoutSuperscript rawStripped
    match readCell (withoutSuperscript != rawStripped) (normalised nfkc withoutSuperscript) with
    | none => .ok none
    | some cell => (numberOf cell).map some

end Ragent.NumericCells
