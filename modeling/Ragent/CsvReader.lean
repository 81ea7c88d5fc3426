import Mathlib.Data.List.DropRight
import Mathlib.Tactic.Common
import Ragent.Exceptions

set_option autoImplicit false

/-!
# The CSV reader

`csv.reader(io.StringIO(text), delimiter=delimiter)` in its other defaults. The lines of a
`StringIO` end in a line feed only, and a record takes as many of them as its quotes ask for.
-/
namespace Ragent.CsvReader

inductive CsvError
  | newlineInField
  | fieldTooLarge

inductive State
  | startRecord
  | startField
  | inField
  | inQuotedField
  | quoteInQuotedField
  | eatCrnl
  deriving DecidableEq

structure Parser where
  state : State := .startRecord
  fields : List (List Char) := []
  field : List Char := []

/-- The default of `csv.field_size_limit`. -/
def fieldLimit : ℕ := 131072

def isNewline (c : Char) : Bool := c == '\n' || c == '\r'

namespace Parser
variable (delimiter : Char) (p : Parser) (c : Char)

def saveField : Parser := { p with fields := p.fields ++ [p.field], field := [] }

def addChar : Except CsvError Parser :=
  if fieldLimit ≤ p.field.length then .error .fieldTooLarge
  else .ok { p with field := p.field ++ [c] }

def startField : Except CsvError Parser :=
  if isNewline c then .ok { p.saveField with state := .eatCrnl }
  else if c = '"' then .ok { p with state := .inQuotedField }
  else if c = delimiter then .ok { p.saveField with state := .startField }
  else addChar { p with state := .inField } c

/-- `parse_process_char` -/
def processChar : Except CsvError Parser :=
  match p.state with
  | .startRecord =>
    if isNewline c then .ok { p with state := .eatCrnl } else p.startField delimiter c
  | .startField => p.startField delimiter c
  | .inField =>
    if isNewline c then .ok { p.saveField with state := .eatCrnl }
    else if c = delimiter then .ok { p.saveField with state := .startField }
    else p.addChar c
  | .inQuotedField =>
    if c = '"' then .ok { p with state := .quoteInQuotedField } else p.addChar c
  | .quoteInQuotedField =>
    if c = '"' then addChar { p with state := .inQuotedField } c
    else if c = delimiter then .ok { p.saveField with state := .startField }
    else if isNewline c then .ok { p.saveField with state := .eatCrnl }
    else addChar { p with state := .inField } c
  | .eatCrnl => if isNewline c then .ok p else .error .newlineInField

/-- `parse_process_char` at `EOL`, behind the last character of a line. -/
def processEol : Parser :=
  match p.state with
  | .startRecord => p
  | .inQuotedField => p
  | .eatCrnl => { p with state := .startRecord }
  | .startField => { p.saveField with state := .startRecord }
  | .inField => { p.saveField with state := .startRecord }
  | .quoteInQuotedField => { p.saveField with state := .startRecord }

def processLine (line : List Char) : Except CsvError Parser := do
  let p ← line.foldlM (processChar delimiter) p
  return p.processEol

end Parser

/-- A record with the characters it was read from, its line ending included, and the same text
    without the line ending. -/
structure Record where
  fields : List (List Char)
  start : ℕ
  source : List Char
  text : List Char

def Record.stop (r : Record) : ℕ := r.start + r.text.length

def ioLines : List Char → List (List Char)
  | [] => []
  | c :: text =>
    if c = '\n' then [c] :: ioLines text
    else
      match ioLines text with
      | [] => [[c]]
      | line :: lines => (c :: line) :: lines

/-- The loop of `Reader_iternext`; a quote that is still open at the end of the text closes there,
    and the record has no line ending then. -/
def nextFrom (delimiter : Char) (start : ℕ) (source : List Char) (p : Parser) :
    List (List Char) → Except CsvError (Option (Record × List (List Char)))
  | [] =>
    if !p.field.isEmpty || p.state = .inQuotedField then
      .ok (some (⟨p.saveField.fields, start, source, source⟩, []))
    else .ok none
  | line :: lines =>
    match p.processLine delimiter line with
    | .error e => .error e
    | .ok p =>
      if p.state = .startRecord then
        let source := source ++ line
        .ok (some (⟨p.fields, start, source, source.rdropWhile isNewline⟩, lines))
      else nextFrom delimiter start (source ++ line) p lines

/-- `next(reader, None)` at position `start`, with the lines left over. -/
def next (delimiter : Char) (start : ℕ) (lines : List (List Char)) :
    Except CsvError (Option (Record × List (List Char))) :=
  nextFrom delimiter start [] {} lines

variable {delimiter : Char} {start : ℕ} {source : List Char} {p : Parser}
  {lines rest : List (List Char)} {r : Record}

theorem nextFrom_spec (h : nextFrom delimiter start source p lines = .ok (some (r, rest))) :
    ∃ read ending, lines = read ++ rest ∧ r.start = start ∧ r.source = source ++ read.flatten ∧
      r.source = r.text ++ ending ∧ (∀ c ∈ ending, isNewline c = true) ∧
      (read = [] → p.field ≠ [] ∨ p.state = .inQuotedField) := by
  induction lines generalizing source p with
  | nil =>
    rw [nextFrom] at h
    split_ifs at h with hopen
    · cases h
      refine ⟨[], [], rfl, rfl, by simp, by simp, by simp, fun _ => ?_⟩
      simpa using hopen
    · cases h
  | cons line lines ih =>
    rw [nextFrom] at h
    split at h
    · cases h
    · split_ifs at h
      · cases h
        refine ⟨[line], (source ++ line).rtakeWhile isNewline, rfl, rfl, by simp, ?_, ?_, by simp⟩
        · exact (List.rdropWhile_append_rtakeWhile).symm
        · exact fun c hc => List.mem_rtakeWhile_imp hc
      · rcases ih h with ⟨read, ending, hlines, hstart, hsource, htext, hending, -⟩
        exact ⟨line :: read, ending, by simp [hlines], hstart, by simp [hsource], htext, hending,
          by simp⟩

theorem next_spec (h : next delimiter start lines = .ok (some (r, rest))) :
    ∃ read ending, lines = read ++ rest ∧ read ≠ [] ∧ r.start = start ∧
      r.source = read.flatten ∧ r.source = r.text ++ ending ∧
      ∀ c ∈ ending, isNewline c = true := by
  rcases nextFrom_spec h with ⟨read, ending, hlines, hstart, hsource, htext, hending, hfirst⟩
  refine ⟨read, ending, hlines, ?_, hstart, hsource, htext, hending⟩
  intro hempty
  rcases hfirst hempty with hfield | hstate
  · exact hfield rfl
  · cases hstate

theorem next_length (h : next delimiter start lines = .ok (some (r, rest))) :
    rest.length < lines.length := by
  rcases next_spec h with ⟨read, -, hlines, hread, -⟩
  have hpos := List.length_pos_iff.mpr hread
  rw [hlines, List.length_append]
  omega

theorem processChar_quoted {c : Char} {p' : Parser} (hp : p.state = .inQuotedField) (hc : c ≠ '"')
    (h : p.processChar delimiter c = .ok p') : p'.state = .inQuotedField := by
  unfold Parser.processChar at h
  rw [hp] at h
  simp only [if_neg hc, Parser.addChar] at h
  split_ifs at h
  cases h
  exact hp

theorem foldlM_quoted {line : List Char} {p' : Parser} (hp : p.state = .inQuotedField)
    (hline : '"' ∉ line) (h : line.foldlM (Parser.processChar delimiter) p = .ok p') :
    p'.state = .inQuotedField := by
  induction line generalizing p with
  | nil =>
    cases h
    exact hp
  | cons c line ih =>
    rw [List.foldlM_cons] at h
    rcases Exceptions.ok_of_bind h with ⟨p₁, hc, hrest⟩
    rw [List.mem_cons, not_or] at hline
    exact ih (processChar_quoted hp (Ne.symm hline.1) hc) hline.2 hrest

theorem processLine_quoted {line : List Char} {p' : Parser} (hp : p.state = .inQuotedField)
    (hline : '"' ∉ line) (h : p.processLine delimiter line = .ok p') :
    p'.state = .inQuotedField := by
  rcases Exceptions.ok_of_bind h with ⟨p₁, hfold, heol⟩
  have hstate := foldlM_quoted hp hline hfold
  cases heol
  unfold Parser.processEol
  rw [hstate]
  exact hstate

theorem processLine_state {line : List Char} {p' : Parser}
    (h : p.processLine delimiter line = .ok p') :
    p'.state = .startRecord ∨ p'.state = .inQuotedField := by
  rcases Exceptions.ok_of_bind h with ⟨p₁, -, heol⟩
  cases heol
  unfold Parser.processEol
  cases hstate : p₁.state with
  | startRecord => exact Or.inl hstate
  | startField => exact Or.inl rfl
  | inField => exact Or.inl rfl
  | inQuotedField => exact Or.inr hstate
  | quoteInQuotedField => exact Or.inl rfl
  | eatCrnl => exact Or.inl rfl

theorem nextFrom_quoted (hp : p.state = .inQuotedField)
    (h : nextFrom delimiter start source p lines = .ok (some (r, rest))) :
    rest = [] ∨ ∃ more, r.source = source ++ more ∧ '"' ∈ more := by
  induction lines generalizing source p with
  | nil =>
    rcases nextFrom_spec h with ⟨read, -, hlines, -⟩
    exact Or.inl (List.append_eq_nil_iff.mp hlines.symm).2
  | cons line lines ih =>
    rw [nextFrom] at h
    split at h
    · cases h
    · rename_i p' hp'
      by_cases hline : '"' ∈ line
      · apply Or.inr
        split_ifs at h
        · cases h
          exact ⟨line, rfl, hline⟩
        · rcases nextFrom_spec h with ⟨read, -, -, -, hsource, -⟩
          exact ⟨line ++ read.flatten, by rw [hsource, List.append_assoc],
            List.mem_append_left _ hline⟩
      · have hstate := processLine_quoted hp hline hp'
        have hopen : p'.state ≠ .startRecord := by
          rw [hstate]
          decide
        rw [if_neg hopen] at h
        rcases ih hstate h with hrest | ⟨more, hsource, hquote⟩
        · exact Or.inl hrest
        · exact Or.inr ⟨line ++ more, by rw [hsource, List.append_assoc],
            List.mem_append_right _ hquote⟩

/-- A record goes on behind its first line only up to a quote or to the end of the text. -/
theorem next_lines {line : List Char}
    (h : next delimiter start (line :: lines) = .ok (some (r, rest))) :
    r.text = line.rdropWhile isNewline ∨ rest = [] ∨
      ∃ more, r.source = line ++ more ∧ '"' ∈ more := by
  rw [next, nextFrom, List.nil_append] at h
  split at h
  · cases h
  · rename_i p' hp'
    split_ifs at h with hstate
    · cases h
      exact Or.inl rfl
    · exact Or.inr (nextFrom_quoted ((processLine_state hp').resolve_left hstate) h)

/-- What `list(reader)` collects until it ends or raises. -/
def records (delimiter : Char) (start : ℕ) (lines : List (List Char)) : List Record :=
  match _h : next delimiter start lines with
  | .ok (some (r, rest)) => r :: records delimiter (start + r.source.length) rest
  | _ => []
termination_by lines.length
decreasing_by exact next_length _h

theorem records_of_next (h : next delimiter start lines = .ok (some (r, rest))) :
    records delimiter start lines = r :: records delimiter (start + r.source.length) rest := by
  rw [records]
  split
  · rename_i r' rest' h'
    rw [h] at h'
    cases h'
    rfl
  · rename_i hnone
    exact absurd h (hnone r rest)

theorem records_of_end (h : next delimiter start lines = .ok none) :
    records delimiter start lines = [] := by
  rw [records]
  split
  · rename_i r' rest' h'
    rw [h] at h'
    cases h'
  · rfl

theorem records_cons {rs : List Record} (h : records delimiter start lines = r :: rs) :
    ∃ rest, next delimiter start lines = .ok (some (r, rest)) ∧
      records delimiter (start + r.source.length) rest = rs := by
  rw [records] at h
  split at h
  · rename_i r' rest h'
    cases h
    exact ⟨rest, h', rfl⟩
  · cases h

/-- Every record lies behind the lines of the ones before. -/
theorem records_spec {rs : List Record} (h : records delimiter start lines = rs) :
    ∀ r ∈ rs, ∃ before read after ending, lines = before ++ read ++ after ∧
      r.start = start + before.flatten.length ∧ r.source = read.flatten ∧
      r.source = r.text ++ ending ∧ ∀ c ∈ ending, isNewline c = true := by
  induction rs generalizing start lines with
  | nil => simp
  | cons first rs ih =>
    intro r hr
    rcases records_cons h with ⟨rest, hnext, hrest⟩
    rcases next_spec hnext with ⟨read, ending, hlines, -, hstart, hsource, htext, hending⟩
    rcases List.mem_cons.mp hr with rfl | hr
    · exact ⟨[], read, rest, ending, hlines, by simp [hstart], hsource, htext, hending⟩
    · rcases ih hrest r hr with ⟨before, read', after, ending', hlines', hstart', hrecord⟩
      refine ⟨read ++ before, read', after, ending', ?_, ?_, hrecord⟩
      · rw [hlines, hlines']
        simp only [List.append_assoc]
      · rw [hstart', hsource, List.flatten_append, List.length_append, Nat.add_assoc]

theorem ioLines_flatten (text : List Char) : (ioLines text).flatten = text := by
  induction text with
  | nil => rfl
  | cons c text ih =>
    rw [ioLines]
    split_ifs
    · rw [List.flatten_cons, ih, List.singleton_append]
    · cases hl : ioLines text with
      | nil =>
        rw [hl] at ih
        simp [← ih]
      | cons line lines =>
        rw [hl, List.flatten_cons] at ih
        simp [← ih]

theorem ioLines_ne_nil (text : List Char) : ∀ line ∈ ioLines text, line ≠ [] := by
  induction text with
  | nil => simp [ioLines]
  | cons c text ih =>
    rw [ioLines]
    split_ifs
    · simpa using ih
    · cases hl : ioLines text with
      | nil => simp
      | cons line lines =>
        rw [hl] at ih
        simp only [List.mem_cons, forall_eq_or_imp] at ih ⊢
        exact ⟨List.cons_ne_nil c line, ih.2⟩

theorem ioLines_cut {text : List Char} {before after : List (List Char)}
    (h : ioLines text = before ++ after) :
    before = [] ∨ after = [] ∨ before.flatten.getLast? = some '\n' := by
  induction text generalizing before with
  | nil => exact Or.inl (List.append_eq_nil_iff.mp h.symm).1
  | cons c text ih =>
    cases before with
    | nil => exact Or.inl rfl
    | cons first before =>
      apply Or.inr
      rw [ioLines] at h
      split_ifs at h with hc
      · rw [List.cons_append, List.cons.injEq] at h
        rw [← h.1, hc, List.flatten_cons, List.singleton_append, List.getLast?_cons]
        rcases ih h.2 with hnil | hnil | hlast
        · rw [hnil]
          exact Or.inr rfl
        · exact Or.inl hnil
        · rw [hlast]
          exact Or.inr rfl
      · cases hl : ioLines text with
        | nil =>
          rw [hl] at h
          cases before with
          | nil =>
            apply Or.inl
            simp only [List.cons_append, List.nil_append, List.cons.injEq] at h
            exact h.2.symm
          | cons => simp at h
        | cons line lines =>
          rw [hl, List.cons_append, List.cons.injEq] at h
          have hline : line ≠ [] := ioLines_ne_nil text line (hl ▸ List.mem_cons_self)
          have hsplit : ioLines text = (line :: before) ++ after := by
            rw [hl, h.2, List.cons_append]
          rcases ih hsplit with hnil | hnil | hlast
          · cases hnil
          · exact Or.inl hnil
          · apply Or.inr
            rw [List.flatten_cons] at hlast
            rw [← h.1, List.flatten_cons, List.cons_append, List.getLast?_cons, hlast]
            rfl

theorem ioLines_line {line : List Char} (rest : List Char) (h : '\n' ∉ line) :
    ioLines (line ++ '\n' :: rest) = (line ++ ['\n']) :: ioLines rest := by
  induction line with
  | nil => rfl
  | cons c line ih =>
    rw [List.mem_cons, not_or] at h
    rw [List.cons_append, ioLines, if_neg (Ne.symm h.1), ih h.2]
    rfl

end Ragent.CsvReader
