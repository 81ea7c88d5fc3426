import Ragent.CellFrames

set_option autoImplicit false

/-!
# Amounts in accounting notation

A figure with a sign, currency symbols, a percent sign and marks, as filings write it.
-/
namespace Ragent.AccountingCells
open SpacedWords PyText FlowText Decimals NumericCells Numerals EdgeCuts CellSteps CellFrames

/-- A magnitude, with commas between groups of three digits or with all its digits in the first
    group. -/
structure Figure where
  lead : List Char
  groups : List (List Char)
  fraction : Option (List Char)
  lead_digits : ∀ c ∈ lead, c.isDigit = true
  groups_digits : ∀ g ∈ groups, g.length = 3 ∧ ∀ c ∈ g, c.isDigit = true
  lead_few : groups ≠ [] → 1 ≤ lead.length ∧ lead.length ≤ 3
  fraction_digits : ∀ f ∈ fraction, ∀ c ∈ f, c.isDigit = true
  some_digit : lead ≠ [] ∨ ∃ f ∈ fraction, f ≠ []

namespace Figure

def point (w : Figure) : List Char :=
  match w.fraction with
  | none => []
  | some f => '.' :: f

def text (w : Figure) : List Char := w.lead ++ w.groups.flatMap (fun g => ',' :: g) ++ w.point

def digits (w : Figure) : List Char := w.lead ++ w.groups.flatten

def magnitude (w : Figure) : ℚ := whole w.digits + fractional (w.fraction.getD [])

end Figure

def inFigure (c : Char) : Bool := c.isDigit || c == '.'

theorem ascii_of_inFigure {c : Char} (h : inFigure c = true) : isAscii c = true := by
  by_cases hdigit : c.isDigit = true
  · have hrange : 48 ≤ c.toNat ∧ c.toNat ≤ 57 := by
      simpa [Char.isDigit, UInt32.le_iff_toNat_le] using hdigit
    exact decide_eq_true (by omega)
  · have hpoint : c = '.' := by simpa [inFigure, hdigit] using h
    exact hpoint ▸ by decide

theorem inFigure_facts {c : Char} (h : inFigure c = true) :
    isSpace c = false ∧ isPad c = false ∧ c ≠ '(' ∧ c ≠ '-' ∧ c ≠ '+' ∧ c ≠ '%' ∧
      c.toLower ∉ "bps".toList := by
  have hascii := ascii_of_inFigure h
  revert h
  revert hascii
  apply ascii_cases
  decide

theorem isDecimal_of_isDigit {c : Char} (h : c.isDigit = true) : isDecimal c = true := by
  have hascii := ascii_of_inFigure (c := c) (by simp [inFigure, h])
  revert h
  revert hascii
  apply ascii_cases
  decide

namespace Figure
variable (w : Figure)

def numeral : List Char := w.digits ++ w.point

theorem digits_digits : ∀ c ∈ w.digits, c.isDigit = true := by
  intro c hc
  cases List.mem_append.mp hc with
  | inl hlead => exact w.lead_digits c hlead
  | inr hgroups =>
    obtain ⟨g, hg, hmem⟩ := List.mem_flatten.mp hgroups
    exact (w.groups_digits g hg).2 c hmem

theorem digits_decimal : ∀ c ∈ w.digits, isDecimal c = true :=
  fun c hc => isDecimal_of_isDigit (w.digits_digits c hc)

theorem fraction_decimal : ∀ f ∈ w.fraction, ∀ c ∈ f, isDecimal c = true :=
  fun f hf c hc => isDecimal_of_isDigit (w.fraction_digits f hf c hc)

theorem numeral_reads : isNumeral w.numeral = true ∧ reading w.numeral = w.magnitude := by
  have hdigits := w.digits_decimal
  unfold numeral point magnitude
  cases hfraction : w.fraction with
  | none =>
    have hne : w.digits ≠ [] := by
      have hlead := w.some_digit.resolve_right (by simp [hfraction])
      simp [digits, hlead]
    dsimp only
    rw [List.append_nil, reading_digits hdigits]
    exact ⟨isNumeral_digits hdigits hne, by simp [fractional]⟩
  | some f =>
    have hf := w.fraction_decimal f hfraction
    have hne : w.digits ≠ [] ∨ f ≠ [] := by
      cases w.some_digit with
      | inl hlead => exact .inl (by simp [digits, hlead])
      | inr hmore =>
        obtain ⟨f', hf', hne⟩ := hmore
        rw [hfraction] at hf'
        cases hf'
        exact .inr hne
    dsimp only
    rw [reading_point hdigits]
    exact ⟨isNumeral_point hdigits hf hne, rfl⟩

theorem point_chars : ∀ c ∈ w.point, inFigure c = true := by
  intro c hc
  unfold point at hc
  cases hfraction : w.fraction with
  | none => simp [hfraction] at hc
  | some f =>
    rw [hfraction] at hc
    cases List.mem_cons.mp hc with
    | inl hpoint => simp [inFigure, hpoint]
    | inr hf => simp [inFigure, w.fraction_digits f hfraction c hf]

theorem text_chars : ∀ c ∈ w.text, inFigure c = true ∨ c = ',' := by
  intro c hc
  unfold text at hc
  rw [List.mem_append, List.mem_append, List.mem_flatMap] at hc
  obtain (hc | hc) | hc := hc
  · exact .inl (by simp [inFigure, w.lead_digits c hc])
  · obtain ⟨g, hg, hmem⟩ := hc
    cases List.mem_cons.mp hmem with
    | inl hcomma => exact .inr hcomma
    | inr hdigit => exact .inl (by simp [inFigure, (w.groups_digits g hg).2 c hdigit])
  · exact .inl (w.point_chars c hc)

theorem filter_text : w.text.filter kept = w.numeral := by
  have hself : ∀ l : List Char, (∀ c ∈ l, inFigure c = true) → l.filter kept = l := by
    intro l hl
    apply List.filter_eq_self.mpr
    intro c hc
    have hc' := hl c hc
    unfold kept
    rw [Bool.and_eq_true, bne_iff_ne, bne_iff_ne]
    constructor
    · intro heq
      rw [heq] at hc'
      exact absurd hc' (by decide)
    · intro heq
      rw [heq] at hc'
      exact absurd hc' (by decide)
  have hgroups : ∀ groups : List (List Char), (∀ g ∈ groups, ∀ c ∈ g, c.isDigit = true) →
      (groups.flatMap fun g => ',' :: g).filter kept = groups.flatten := by
    intro groups hdigits
    induction groups with
    | nil => rfl
    | cons g groups ih =>
      rw [List.flatMap_cons, List.filter_append, List.filter_cons_of_neg (by decide),
        hself g fun c hc => by simp [inFigure, hdigits g List.mem_cons_self c hc],
        ih fun g' hg' => hdigits g' (List.mem_cons_of_mem g hg'), List.flatten_cons]
  unfold text numeral digits
  rw [List.filter_append, List.filter_append, hself _ w.point_chars,
    hself w.lead fun c hc => by simp [inFigure, w.lead_digits c hc],
    hgroups w.groups fun g hg => (w.groups_digits g hg).2]

theorem text_firm : Firm inFigure w.text := by
  constructor
  · cases hlead : w.lead with
    | cons c rest =>
      refine ⟨c, rest ++ w.groups.flatMap (fun g => ',' :: g) ++ w.point, by simp [text, hlead], ?_⟩
      simp [inFigure, w.lead_digits c (by rw [hlead]; exact List.mem_cons_self)]
    | nil =>
      have hgroups : w.groups = [] := by
        by_contra hne
        have hfew := (w.lead_few hne).1
        simp [hlead] at hfew
      obtain ⟨f, hf, -⟩ := w.some_digit.resolve_left (by simp [hlead])
      have hfraction : w.fraction = some f := hf
      exact ⟨'.', f, by simp [text, hlead, hgroups, point, hfraction], by decide⟩
  · cases w.point.eq_nil_or_concat with
    | inr hpoint =>
      obtain ⟨body, c, hbody⟩ := hpoint
      refine ⟨w.lead ++ w.groups.flatMap (fun g => ',' :: g) ++ body, c, ?_, ?_⟩
      · simp [text, hbody]
      · exact w.point_chars c (by rw [hbody]; simp)
    | inl hpoint =>
      cases w.groups.eq_nil_or_concat with
      | inr hgroups =>
        obtain ⟨groups, g, hg⟩ := hgroups
        have hmem : g ∈ w.groups := by rw [hg]; simp
        have hthree := w.groups_digits g hmem
        have hne : g ≠ [] := by
          intro hnil
          rw [hnil] at hthree
          exact absurd hthree.1 (by decide)
        have hlast := List.dropLast_append_getLast hne
        refine ⟨w.lead ++ groups.flatMap (fun g => ',' :: g) ++ (',' :: g.dropLast),
          g.getLast hne, ?_, ?_⟩
        · unfold text
          rw [hpoint, hg, List.concat_eq_append, List.flatMap_append, List.append_nil]
          conv_lhs => rw [← hlast]
          simp
        · simp [inFigure, hthree.2 _ (List.getLast_mem hne)]
      | inl hgroups =>
        have hfraction : w.fraction = none := by
          unfold point at hpoint
          cases hf : w.fraction with
          | none => rfl
          | some f => simp [hf] at hpoint
        have hne := w.some_digit.resolve_right (by simp [hfraction])
        have hlast := List.dropLast_append_getLast hne
        refine ⟨w.lead.dropLast, w.lead.getLast hne, ?_, ?_⟩
        · rw [hlast]
          simp [text, hgroups, hpoint]
        · simp [inFigure, w.lead_digits _ (List.getLast_mem hne)]

theorem text_digit : ∃ d ∈ w.text, isDecimal d = true := by
  obtain ⟨d, hd, hdigit⟩ := digit_of_numeral w.numeral_reads.1
  rw [← w.filter_text] at hd
  exact ⟨d, (List.mem_filter.mp hd).1, hdigit⟩

end Figure

inductive Sign
  | none | plus | hyphen | minus | parentheses
  deriving DecidableEq

inductive Percent
  | none | afterNumber | afterParenthesis
  deriving DecidableEq

structure Reference where
  front : Char
  digits : List Char
  close : Char
  front_mem : front ∈ "([\x7b".toList
  digits_digits : ∀ c ∈ digits, c.isDigit = true
  few : 1 ≤ digits.length ∧ digits.length ≤ 2
  close_mem : close ∈ ")]\x7d".toList

def Reference.text (r : Reference) : List Char := r.front :: (r.digits ++ [r.close])

inductive Marks
  | references (notes : List Reference)
  | superscripts (marks : List Char) (digits : ∀ c ∈ marks, (superscriptDigits.lookup c).isSome)

def Marks.text : Marks → List Char
  | .references notes => notes.flatMap Reference.text
  | .superscripts marks _ => marks

def Sign.mark : Sign → List Char
  | .none => []
  | .plus => ['+']
  | .hyphen => ['-']
  | .minus => ['−']
  | .parentheses => ['(']

/-- Currency symbols and spaces stand in front of the sign and behind it, and spaces behind the
    number. -/
structure Amount where
  outer : List Char
  sign : Sign
  inner : List Char
  figure : Figure
  gap : List Char
  percent : Percent
  marks : Marks
  outer_pad : ∀ c ∈ outer, isPad c = true
  inner_pad : ∀ c ∈ inner, isPad c = true
  gap_space : ∀ c ∈ gap, c = ' '

namespace Amount

def front (n : Amount) : List Char := n.outer ++ n.sign.mark ++ n.inner

def back (n : Amount) : List Char :=
  n.gap ++ (if n.percent = .afterNumber then ['%'] else []) ++
    (if n.sign = .parentheses then [')'] else []) ++
    (if n.percent = .afterParenthesis then ['%'] else [])

def text (n : Amount) : List Char := n.front ++ n.figure.text ++ (n.back ++ n.marks.text)

def isNegative (n : Amount) : Bool := n.sign ∈ [.hyphen, .minus, .parentheses]

def value (n : Amount) : ℚ := if n.isNegative then -n.figure.magnitude else n.figure.magnitude

end Amount

end Ragent.AccountingCells
