import Ragent.AccountingSteps

set_option autoImplicit false

/-!
# Accounting notation

An amount as filings write it, and what `parse_numeric` reads from it.
-/
namespace Ragent.AccountingCells
open SpacedWords PyText FlowText Decimals NumericCells Numerals EdgeCuts CellSteps CellFrames

def Clean (c : Char) : Prop := isAscii c = true ∨ c ∈ currency ∨ c = '−'

theorem clean_facts {c : Char} (h : Clean c) :
    superscriptDigits.lookup c = none ∧ isSuperscript c = false ∧
      (space (replaced c) = space c) := by
  have hother : ∀ c ∈ '−' :: currency, superscriptDigits.lookup c = none ∧
      isSuperscript c = false ∧ space (replaced c) = space c :=
    forall_of_check (by decide)
  cases h with
  | inl hascii =>
    exact ⟨lookup_ascii hascii, isSuperscript_ascii hascii, by rw [replaced_ascii hascii]⟩
  | inr hsymbol =>
    apply hother c
    cases hsymbol with
    | inl hcurrency => exact List.mem_cons_of_mem _ hcurrency
    | inr hminus => exact hminus ▸ List.mem_cons_self

theorem clean_of_isPad {c : Char} (h : isPad c = true) : Clean c := by
  by_cases hspace : c = ' '
  · exact .inl (hspace ▸ by decide)
  · exact .inr (.inl (by simpa [isPad, hspace] using h))

theorem normalised_clean (nfkc : Nfkc) {text : List Char} (h : ∀ c ∈ text, Clean c) :
    normalised nfkc text = strip (text.map replaced) := by
  have hfolds : nfkc.normalize text = text := by
    rw [nfkc.folds]
    · conv_rhs => rw [← List.map_id text]
      exact List.map_congr_left fun c hc => by rw [(clean_facts (h c hc)).1]; rfl
    · intro c hc
      obtain hascii | hcurrency | hminus := h c hc
      · exact .inl hascii
      · exact .inr (.inl hcurrency)
      · exact .inr (.inr (.inl hminus))
  unfold normalised
  rw [hfolds]

theorem reference_chars (notes : List Reference) :
    ∀ c ∈ notes.flatMap Reference.text, isAscii c = true ∧ isSpace c = false := by
  have hbracket : ∀ c ∈ "()[]\x7b\x7d".toList, isAscii c = true ∧ isSpace c = false :=
    forall_of_check (by decide)
  intro c hc
  obtain ⟨r, -, hr⟩ := List.mem_flatMap.mp hc
  unfold Reference.text at hr
  rw [List.mem_cons, List.mem_append, List.mem_singleton] at hr
  obtain hr | hr | hr := hr
  · exact hr ▸ hbracket _ (bracket_of_front r.front_mem)
  · have hfigure : inFigure c = true := by simp [inFigure, r.digits_digits c hr]
    exact ⟨ascii_of_inFigure hfigure, (inFigure_facts hfigure).1⟩
  · exact hr ▸ hbracket _ (bracket_of_close r.close_mem)

namespace Amount
variable (n : Amount) (nfkc : Nfkc)

theorem front_clean : ∀ c ∈ n.front, Clean c := by
  intro c hc
  unfold front at hc
  rw [List.mem_append, List.mem_append] at hc
  obtain (hc | hc) | hc := hc
  · exact clean_of_isPad (n.outer_pad c hc)
  · have hmark : ∀ c ∈ n.sign.mark, isAscii c = true ∨ c = '−' := by
      cases n.sign <;> exact forall_of_check (by decide)
    cases hmark c hc with
    | inl hascii => exact .inl hascii
    | inr hminus => exact .inr (.inr hminus)
  · exact clean_of_isPad (n.inner_pad c hc)

theorem figure_ascii : ∀ c ∈ n.figure.text, isAscii c = true := by
  intro c hc
  cases n.figure.text_chars c hc with
  | inl hfigure => exact ascii_of_inFigure hfigure
  | inr hcomma => exact hcomma ▸ by decide

theorem back_chars : ∀ c ∈ n.back, c = ' ' ∨ c = '%' ∨ c = ')' := by
  intro c hc
  have hif : ∀ {p : Prop} [Decidable p] {d : Char}, c ∈ (if p then [d] else []) → c = d := by
    intro p _ d hmem
    by_cases hp : p
    · simpa [hp] using hmem
    · simp [hp] at hmem
  unfold back at hc
  rw [List.mem_append, List.mem_append, List.mem_append] at hc
  obtain ((hc | hc) | hc) | hc := hc
  · exact .inl (n.gap_space c hc)
  · exact .inr (.inl (hif hc))
  · exact .inr (.inr (hif hc))
  · exact .inr (.inl (hif hc))

theorem back_facts : ∀ c ∈ n.back, isAscii c = true ∧ isDecimal c = false := by
  have hall : ∀ c ∈ [' ', '%', ')'], isAscii c = true ∧ isDecimal c = false :=
    forall_of_check (by decide)
  intro c hc
  exact hall c (by simpa using n.back_chars c hc)

theorem normalised_front {y : List Char} (hy : ∀ c ∈ y, isAscii c = true) :
    normalised nfkc (n.front.dropWhile space ++ n.figure.text ++ y) =
      n.plainFront.dropWhile space ++ n.figure.text ++ y.rdropWhile space := by
  have hclean : ∀ c ∈ n.front.dropWhile space ++ n.figure.text ++ y, Clean c := by
    intro c hc
    rw [List.mem_append, List.mem_append] at hc
    obtain (hc | hc) | hc := hc
    · exact n.front_clean c ((List.dropWhile_suffix space).sublist.subset hc)
    · exact .inl (n.figure_ascii c hc)
    · exact .inl (hy c hc)
  have hpads : ∀ l : List Char, (∀ c ∈ l, isPad c = true) → l.map replaced = l := by
    have hcurrency : ∀ c ∈ ' ' :: currency, replaced c = c := forall_of_check (by decide)
    intro l hl
    conv_rhs => rw [← List.map_id l]
    refine List.map_congr_left fun c hc => hcurrency c ?_
    by_cases hspace : c = ' '
    · exact hspace ▸ List.mem_cons_self
    · exact List.mem_cons_of_mem _ (by simpa [isPad, hspace] using hl c hc)
  have hplain : n.front.map replaced = n.plainFront := by
    unfold front plainFront
    rw [List.map_append, List.map_append, hpads _ n.outer_pad, hpads _ n.inner_pad]
  have hspace : ∀ l : List Char, (∀ c ∈ l, Clean c) →
      (l.dropWhile space).map replaced = (l.map replaced).dropWhile space := by
    intro l hl
    induction l with
    | nil => rfl
    | cons c l ih =>
      have hsame := (clean_facts (hl c List.mem_cons_self)).2.2
      have ih' := ih fun d hd => hl d (List.mem_cons_of_mem c hd)
      by_cases hc : space c = true
      · rw [List.dropWhile_cons_of_pos hc, List.map_cons,
          List.dropWhile_cons_of_pos (by rw [hsame, hc]), ih']
      · rw [List.dropWhile_cons_of_neg hc, List.map_cons,
          List.dropWhile_cons_of_neg (by rw [hsame]; exact hc)]
  rw [normalised_clean nfkc hclean, List.map_append, List.map_append,
    map_replaced_ascii n.figure_ascii, map_replaced_ascii hy, hspace _ n.front_clean, hplain,
    strip_figure, List.dropWhile_idempotent]

theorem withoutSuperscript_amount {y : List Char} (hy : ∀ c ∈ y, isAscii c = true) :
    withoutSuperscript (strip (n.front ++ n.figure.text ++ y)) =
      strip (n.front ++ n.figure.text ++ y) := by
  apply withoutSuperscript_of_last
  intro rest c hlast
  have hmem : c ∈ n.front ++ n.figure.text ++ y := by
    refine (Cut.trim space (n.front ++ n.figure.text ++ y)).isInfix.subset ?_
    change c ∈ strip _
    rw [hlast]
    simp
  constructor
  · rw [List.mem_append, List.mem_append] at hmem
    obtain (hmem | hmem) | hmem := hmem
    · exact (clean_facts (n.front_clean c hmem)).2.1
    · exact isSuperscript_ascii (n.figure_ascii c hmem)
    · exact isSuperscript_ascii (hy c hmem)
  · intro hspace
    have hfalse := last_of_strip hlast
    rw [hspace] at hfalse
    exact absurd hfalse (by decide)

theorem withoutSuperscript_marks {marks : List Char}
    (hmarks : ∀ c ∈ marks, isSuperscript c = true) :
    withoutSuperscript (n.front.dropWhile space ++ n.figure.text ++ (n.back ++ marks)) =
      n.front.dropWhile space ++ n.figure.text ++ n.back.rdropWhile space := by
  have hpq : ∀ c, inFigure c = true → (isSuperscript c || c == ' ') = false := by
    intro c hc
    have hfacts := inFigure_facts hc
    have hne : c ≠ ' ' := by
      intro heq
      rw [heq] at hfacts
      exact absurd hfacts.1 (by decide)
    simp [isSuperscript_ascii (ascii_of_inFigure hc), hne]
  have hback : ∀ c ∈ n.back.reverse, (isSuperscript c || c == ' ') = space c := by
    have hall : ∀ c ∈ [' ', '%', ')'], (isSuperscript c || c == ' ') = space c :=
      forall_of_check (by decide)
    intro c hc
    exact hall c (by simpa using n.back_chars c (List.mem_reverse.mp hc))
  have hcongr : ∀ {p q : Char → Bool} {l : List Char}, (∀ c ∈ l, p c = q c) →
      l.dropWhile p = l.dropWhile q := by
    intro p q l hl
    induction l with
    | nil => rfl
    | cons c l ih =>
      rw [List.dropWhile_cons, List.dropWhile_cons, hl c List.mem_cons_self,
        ih fun d hd => hl d (List.mem_cons_of_mem c hd)]
  have hoff : (n.back ++ marks).rdropWhile (fun c => isSuperscript c || c == ' ') =
      n.back.rdropWhile space := by
    unfold List.rdropWhile
    rw [List.reverse_append, List.dropWhile_append_of_pos, hcongr hback]
    intro c hc
    simp [hmarks c (List.mem_reverse.mp hc)]
  unfold withoutSuperscript
  rw [rdropWhile_firm n.figure.text_firm hpq, hoff]

def HasMarks : Prop := n.marks.text ≠ []

instance : Decidable n.HasMarks := inferInstanceAs (Decidable (_ ≠ _))

/-- The normalised amount is its front, its figure, something behind it and references. -/
structure Normal (y : List Char) (notes : List Reference) : Prop where
  text_eq : normalised nfkc (withoutSuperscript (strip n.text)) =
    n.plainFront.dropWhile space ++ n.figure.text ++ y ++ notes.flatMap Reference.text
  back_eq : y.rdropWhile space = n.back.rdropWhile space
  no_digit : ∀ c ∈ y, isDecimal c = false
  marked : ((withoutSuperscript (strip n.text) != strip n.text) || !notes.isEmpty) =
    decide n.HasMarks

theorem back_dropped : ∀ c ∈ n.back.rdropWhile space, isAscii c = true ∧ isDecimal c = false :=
  fun c hc => n.back_facts c ((List.rdropWhile_prefix space n.back).sublist.subset hc)

theorem normalised_strip {y : List Char} (hy : ∀ c ∈ y, isAscii c = true) :
    normalised nfkc (strip (n.front ++ n.figure.text ++ y)) =
      n.plainFront.dropWhile space ++ n.figure.text ++ y.rdropWhile space := by
  rw [strip_figure, n.normalised_front nfkc fun c hc =>
    hy c ((List.rdropWhile_prefix space y).sublist.subset hc), List.rdropWhile_idempotent]

theorem rdropWhile_last (y : List Char) {c : Char} (hc : isSpace c = false) :
    (y ++ [c]).rdropWhile space = y ++ [c] :=
  List.rdropWhile_concat_neg _ _ _ (by simpa [space, Glyph.char] using hc)

theorem normal_of_none (h : n.marks.text = []) : n.Normal nfkc (n.back.rdropWhile space) [] := by
  have hascii : ∀ c ∈ n.back, isAscii c = true := fun c hc => (n.back_facts c hc).1
  have htext : n.text = n.front ++ n.figure.text ++ n.back := by
    unfold text
    rw [h, List.append_nil]
  have hoff := n.withoutSuperscript_amount hascii
  refine ⟨?_, List.rdropWhile_idempotent _ _, fun c hc => (n.back_dropped c hc).2, ?_⟩
  · rw [htext, hoff, n.normalised_strip nfkc hascii]
    simp
  · rw [htext, hoff]
    simp [HasMarks, h]

theorem normal_of_references {notes : List Reference} (h : n.marks.text = notes.flatMap Reference.text)
    (hne : notes ≠ []) : n.Normal nfkc n.back notes := by
  obtain ⟨body, r, hbody⟩ := notes.eq_nil_or_concat.resolve_left hne
  have hascii : ∀ c ∈ n.back ++ n.marks.text, isAscii c = true := by
    intro c hc
    rw [h] at hc
    exact (List.mem_append.mp hc).elim (fun hback => (n.back_facts c hback).1)
      fun hnote => (reference_chars notes c hnote).1
  have hend : n.back ++ n.marks.text =
      (n.back ++ body.flatMap Reference.text ++ r.front :: r.digits) ++ [r.close] := by
    rw [h, hbody]
    simp [Reference.text]
  have hclose : isSpace r.close = false := (bracket_not (bracket_of_close r.close_mem)).1
  have hoff := n.withoutSuperscript_amount hascii
  refine ⟨?_, rfl, fun c hc => (n.back_facts c hc).2, ?_⟩
  · unfold text
    rw [hoff, n.normalised_strip nfkc hascii, hend, rdropWhile_last _ hclose, ← hend, h,
      ← List.append_assoc]
  · unfold text
    rw [hoff, bne_self_eq_false, hbody]
    simp [HasMarks, h, hbody, Reference.text]

theorem normal_of_superscripts {marks : List Char} (h : n.marks.text = marks)
    (hmarks : ∀ c ∈ marks, (superscriptDigits.lookup c).isSome) (hne : marks ≠ []) :
    n.Normal nfkc (n.back.rdropWhile space) [] := by
  obtain ⟨body, mark, hbody⟩ := marks.eq_nil_or_concat.resolve_left hne
  have hmem : mark ∈ marks := by rw [hbody]; simp
  have hstrip : strip n.text = n.front.dropWhile space ++ n.figure.text ++ (n.back ++ marks) := by
    unfold text
    rw [strip_figure, h, hbody, List.concat_eq_append, ← List.append_assoc,
      rdropWhile_last _ (marks_not_space hmarks mark hmem)]
  have hoff := n.withoutSuperscript_marks (marks_superscript hmarks)
  refine ⟨?_, List.rdropWhile_idempotent _ _, fun c hc => (n.back_dropped c hc).2, ?_⟩
  · rw [hstrip, hoff, n.normalised_front nfkc fun c hc => (n.back_dropped c hc).1,
      List.rdropWhile_idempotent]
    simp
  · have hchanged : withoutSuperscript (strip n.text) ≠ strip n.text := by
      rw [hstrip, hoff]
      intro heq
      have hlength := congrArg List.length heq
      have hle := (List.rdropWhile_prefix space n.back).sublist.length_le
      have hpos := List.length_pos_of_mem hmem
      simp only [List.length_append] at hlength
      omega
    simp [hchanged, HasMarks, h, hne]

theorem exists_normal : ∃ y notes, n.Normal nfkc y notes := by
  by_cases hnone : n.marks.text = []
  · exact ⟨_, _, n.normal_of_none nfkc hnone⟩
  · cases hmarks : n.marks with
    | references notes =>
      have htext : n.marks.text = notes.flatMap Reference.text := by rw [hmarks]; rfl
      have hne : notes ≠ [] := by
        intro hnil
        exact hnone (by rw [htext, hnil]; rfl)
      exact ⟨_, _, n.normal_of_references nfkc htext hne⟩
    | superscripts marks digits =>
      have htext : n.marks.text = marks := by rw [hmarks]; rfl
      exact ⟨_, _, n.normal_of_superscripts nfkc htext digits fun hnil => hnone (htext.trans hnil)⟩

theorem plainFront_no_digit : ∀ c ∈ n.plainFront.dropWhile space, isDigit c = false := by
  have hpad : ∀ c ∈ ' ' :: currency, isDigit c = false := forall_of_check (by decide)
  have hpads : ∀ c, isPad c = true → isDigit c = false := by
    intro c hc
    apply hpad
    by_cases hspace : c = ' '
    · exact hspace ▸ List.mem_cons_self
    · exact List.mem_cons_of_mem _ (by simpa [isPad, hspace] using hc)
  have hmark : ∀ c ∈ n.sign.mark.map replaced, isDigit c = false := by
    cases n.sign <;> exact forall_of_check (by decide)
  intro c hc
  have hmem := (List.dropWhile_suffix space).sublist.subset hc
  unfold plainFront at hmem
  rw [List.mem_append, List.mem_append] at hmem
  obtain (hmem | hmem) | hmem := hmem
  · exact hpads c (n.outer_pad c hmem)
  · exact hmark c hmem
  · exact hpads c (n.inner_pad c hmem)

theorem steps {y : List Char} {notes : List Reference} (h : n.Normal nfkc y notes) :
    let text := normalised nfkc (withoutSuperscript (strip n.text))
    isNull text = false ∧ bodyOf text = n.body ∧ n.body ≠ [] ∧ isNull n.body = false ∧
      (stripFootnotes text).2 = !notes.isEmpty := by
  obtain ⟨d, hd, hdigit⟩ := n.figure.text_digit
  obtain ⟨y', hy', hstrip⟩ := stripFootnotes_references (w := n.figure) n.plainFront_no_digit
    h.no_digit notes
  have hmem : d ∈ n.body := by simp [body, hd]
  dsimp only
  rw [h.text_eq]
  refine ⟨isNull_of_digit hdigit (by simp [hd]), ?_, List.ne_nil_of_mem hmem,
    isNull_of_digit hdigit hmem, congrArg Prod.snd hstrip⟩
  unfold bodyOf body
  rw [hstrip, strip_figure, List.dropWhile_idempotent, hy', h.back_eq]

theorem core_of_body {text : List Char} (h : bodyOf text = n.body) :
    (decide (Negated text), numeralOf text) =
      readNumber (n.plainFront.dropWhile space ++ n.figure.text ++ n.inside) := by
  have hcore : coreOf text = n.plainFront.dropWhile space ++ n.figure.text ++ n.inside := by
    unfold coreOf
    rw [h, n.takeSuffix_body]
  rw [← hcore, readNumber_eq]
  rfl

theorem cell (hinside : n.percentInside = false) :
    let text := normalised nfkc (withoutSuperscript (strip n.text))
    Readable text ∧ cellOf (withoutSuperscript (strip n.text) != strip n.text) text =
      ⟨n.figure.numeral, n.percent != .none, n.isNegative, decide n.HasMarks⟩ := by
  obtain ⟨y, notes, hnormal⟩ := n.exists_normal nfkc
  obtain ⟨hnull, hbody, hne, hnull', hnotes⟩ := n.steps nfkc hnormal
  have hcore := n.core_of_body hbody
  rw [n.readNumber_core hinside, Prod.mk.injEq] at hcore
  refine ⟨⟨hnull, hbody ▸ hne, hbody ▸ hnull', ?_⟩, ?_⟩
  · rw [hcore.2]
    exact n.figure.numeral_reads.1
  · unfold cellOf
    rw [hcore.1, hcore.2, hbody, n.takeSuffix_body, hinside, hnotes, hnormal.marked, Bool.not_false,
      Bool.and_true]

theorem not_readable (hinside : n.percentInside = true) :
    ¬ Readable (normalised nfkc (withoutSuperscript (strip n.text))) := by
  obtain ⟨y, notes, hnormal⟩ := n.exists_normal nfkc
  have hcore := n.core_of_body (n.steps nfkc hnormal).2.1
  intro hreadable
  have hnumeral := hreadable.2.2.2
  have hfalse := n.readNumber_inside hinside
  rw [← hcore] at hfalse
  rw [hfalse] at hnumeral
  cases hnumeral

def Exact : Except Signal (Option ParsedNumber) → Prop
  | .ok (some number) => number.value.value = n.value ∧ number.isPercent = (n.percent != .none) ∧
      number.isNegative = n.isNegative ∧ number.hadFootnote = decide n.HasMarks
  | _ => False

theorem exact_iff (hinside : n.percentInside = false) :
    n.Exact (parseNumeric nfkc (some n.text)) ↔
      ∃ value, valueOf ⟨n.figure.numeral, n.percent != .none, n.isNegative, decide n.HasMarks⟩ =
        .ok value ∧ value.value = n.value := by
  obtain ⟨hreadable, hcell⟩ := n.cell nfkc hinside
  rw [parseNumeric_eq]
  dsimp only
  rw [if_pos hreadable, hcell]
  generalize hc : Cell.mk n.figure.numeral (n.percent != .none) n.isNegative
    (decide n.HasMarks) = cell
  cases hnumber : numberOf cell with
  | error e =>
    have hnone : ∀ value, valueOf cell ≠ .ok value := by
      intro value hvalue
      have hok := numberOf_eq_ok_iff.mpr ⟨value, hvalue, rfl⟩
      rw [hnumber] at hok
      cases hok
    simp [Exact, Except.map, hnone]
  | ok number =>
    obtain ⟨value, hvalue, heq⟩ := numberOf_eq_ok_iff.mp hnumber
    subst heq
    have hflags : cell.isPercent = (n.percent != .none) ∧ cell.isNegative = n.isNegative ∧
        cell.hadFootnote = decide n.HasMarks := by
      rw [← hc]
      exact ⟨rfl, rfl, rfl⟩
    simp [Exact, Except.map, hvalue, hflags]

end Amount

theorem value_exact_iff (n : Amount) {k : ℕ} {e : ℤ} (hk : k < 10 ^ 28)
    (hmagnitude : n.figure.magnitude = k * 10 ^ e) (isPercent hadFootnote : Bool) :
    (∃ value, valueOf ⟨n.figure.numeral, isPercent, n.isNegative, hadFootnote⟩ = .ok value ∧
        value.value = n.value) ↔
      (n.isNegative = true → n.figure.magnitude < 10 ^ (1000000 : ℤ) ∧
        OnGrid (-1000026) n.figure.magnitude) := by
  have hreads : (decimalOf n.figure.numeral).magnitude = n.figure.magnitude := by
    rw [decimalOf_magnitude n.figure.numeral_reads.1, n.figure.numeral_reads.2]
  unfold valueOf Amount.value
  dsimp only
  by_cases hnegative : n.isNegative = true
  · rw [if_pos hnegative, if_pos hnegative, imp_iff_right hnegative, ← hreads]
    rw [← hreads] at hmagnitude
    have hexact : _ ↔ _ ∧ _ < (10 : ℚ) ^ (1000000 : ℤ) :=
      minus_exact_iff (c := defaultContext) (d := decimalOf n.figure.numeral) rfl
    have hgrid : Representable defaultContext _ ↔ OnGrid (-1000026) _ :=
      representable_iff_of_significant hk hmagnitude
    rw [hexact, hgrid, and_comm]
  · rw [if_neg hnegative, if_neg hnegative]
    have hvalue : (decimalOf n.figure.numeral).value = n.figure.magnitude := hreads
    simp [hnegative, hvalue]

def lone (digits : List Char) (hdigits : ∀ c ∈ digits, c.isDigit = true) (hne : digits ≠ []) :
    Amount where
  outer := []
  sign := .parentheses
  inner := []
  figure := {
    lead := digits
    groups := []
    fraction := none
    lead_digits := hdigits
    groups_digits := by simp
    lead_few := by simp
    fraction_digits := by simp
    some_digit := .inl hne }
  gap := []
  percent := .none
  marks := .references []
  outer_pad := by simp
  inner_pad := by simp
  gap_space := by simp

/-- An amount of at most 28 significant digits is read exactly where no percent sign stands inside
    the parentheses and the magnitude of a negative one is below the greatest power of ten and has no
    digit behind the least one. A lone number of one or two digits in parentheses is negative. -/
theorem accounting_is_read_exactly_iff (nfkc : Nfkc) :
    (∀ (n : Amount) (k : ℕ) (e : ℤ), k < 10 ^ 28 → n.figure.magnitude = k * 10 ^ e →
      (n.Exact (parseNumeric nfkc (some n.text)) ↔
        ¬ (n.sign = .parentheses ∧ n.percent = .afterNumber) ∧
        (n.isNegative = true → n.figure.magnitude < 10 ^ (1000000 : ℤ) ∧
          OnGrid (-1000026) n.figure.magnitude))) ∧
    ∀ digits : List Char, (∀ c ∈ digits, c.isDigit = true) →
      1 ≤ digits.length ∧ digits.length ≤ 2 →
      ∃ number, parseNumeric nfkc (some ('(' :: (digits ++ [')']))) = .ok (some number) ∧
        number.value.value = -(whole digits : ℚ) ∧ number.isNegative = true ∧
        number.hadFootnote = false ∧ number.isPercent = false := by
  have hall : ∀ (n : Amount) (k : ℕ) (e : ℤ), k < 10 ^ 28 → n.figure.magnitude = k * 10 ^ e →
      (n.Exact (parseNumeric nfkc (some n.text)) ↔
        ¬ (n.sign = .parentheses ∧ n.percent = .afterNumber) ∧
        (n.isNegative = true → n.figure.magnitude < 10 ^ (1000000 : ℤ) ∧
          OnGrid (-1000026) n.figure.magnitude)) := by
    intro n k e hk hmagnitude
    by_cases hinside : n.percentInside = true
    · have hstyle : n.sign = .parentheses ∧ n.percent = .afterNumber := by
        simpa [Amount.percentInside] using hinside
      rw [parseNumeric_eq]
      dsimp only
      rw [if_neg (n.not_readable nfkc hinside)]
      simp [Amount.Exact, hstyle]
    · have houtside : n.percentInside = false := by simpa using hinside
      have hstyle : ¬ (n.sign = .parentheses ∧ n.percent = .afterNumber) := by
        intro hstyle
        simp [Amount.percentInside, hstyle.1, hstyle.2] at houtside
      rw [n.exact_iff nfkc houtside, value_exact_iff n hk hmagnitude, and_iff_right hstyle]
  refine ⟨hall, ?_⟩
  intro digits hdigits hfew
  have hne : digits ≠ [] := List.ne_nil_of_length_pos hfew.1
  have htext : (lone digits hdigits hne).text = '(' :: (digits ++ [')']) := by
    simp [lone, Amount.text, Amount.front, Amount.back, Figure.text, Figure.point, Sign.mark,
      Marks.text]
  have hmagnitude : (lone digits hdigits hne).figure.magnitude = whole digits := by
    simp [lone, Figure.magnitude, Figure.digits, fractional]
  have hsmall : whole digits < 10 ^ 2 :=
    (whole_lt digits).trans_le (Nat.pow_le_pow_right (by omega) hfew.2)
  have hgrid : OnGrid 0 (whole digits : ℚ) := ⟨whole digits, by simp⟩
  have hexact := (hall (lone digits hdigits hne) (whole digits) 0 (by omega)
    (by rw [hmagnitude]; simp)).mpr ⟨by simp [lone], fun _ => ?_⟩
  · rw [htext] at hexact
    have hvalue : (lone digits hdigits hne).value = -(whole digits : ℚ) := by
      rw [← hmagnitude]
      rfl
    cases hparse : parseNumeric nfkc (some ('(' :: (digits ++ [')']))) with
    | error e =>
      rw [hparse] at hexact
      exact hexact.elim
    | ok result =>
      rw [hparse] at hexact
      cases result with
      | none => exact hexact.elim
      | some number =>
        exact ⟨number, rfl, hexact.1.trans hvalue, hexact.2.2.1, hexact.2.2.2, hexact.2.1⟩
  · rw [hmagnitude]
    have hlt : (whole digits : ℚ) < 10 ^ (2 : ℤ) := by exact_mod_cast hsmall
    exact ⟨hlt.trans_le (zpow_le_zpow_right₀ (by norm_num) (by omega)), hgrid.mono (by omega)⟩

/-- `$ (1,234.5)%[2]` -/
def filingAmount : Amount where
  outer := ['$', ' ']
  sign := .parentheses
  inner := []
  figure := {
    lead := ['1']
    groups := [['2', '3', '4']]
    fraction := some ['5']
    lead_digits := forall_of_check (by decide)
    groups_digits := by
      intro g hg
      cases List.mem_singleton.mp hg
      exact ⟨rfl, forall_of_check (by decide)⟩
    lead_few := by decide
    fraction_digits := by
      intro f hf
      cases hf
      exact forall_of_check (by decide)
    some_digit := .inl (by decide) }
  gap := []
  percent := .afterParenthesis
  marks := .references [⟨'[', ['2'], ']', by decide, forall_of_check (by decide), by decide,
    by decide⟩]
  outer_pad := forall_of_check (by decide)
  inner_pad := forall_of_check (by decide)
  gap_space := forall_of_check (by decide)

theorem filing_amount_is_read :
    filingAmount.text = "$ (1,234.5)%[2]".toList ∧
      filingAmount.Exact (parseNumeric Nfkc.folding (some "$ (1,234.5)%[2]".toList)) := by
  have htext : filingAmount.text = "$ (1,234.5)%[2]".toList := by decide
  have hmagnitude : filingAmount.figure.magnitude = 12345 * 10 ^ (-1 : ℤ) := by decide +kernel
  have hgrid : OnGrid (-1) filingAmount.figure.magnitude := ⟨12345, hmagnitude⟩
  have hlt : filingAmount.figure.magnitude < 10 ^ (4 : ℤ) := by decide +kernel
  refine ⟨htext, ?_⟩
  rw [← htext]
  exact ((accounting_is_read_exactly_iff Nfkc.folding).1 filingAmount 12345 (-1) (by norm_num)
    hmagnitude).mpr ⟨by decide, fun _ =>
      ⟨hlt.trans_le (zpow_le_zpow_right₀ (by norm_num) (by omega)), hgrid.mono (by omega)⟩⟩

/-- `(12.3%)` -/
def percentAmount : Amount where
  outer := []
  sign := .parentheses
  inner := []
  figure := {
    lead := ['1', '2']
    groups := []
    fraction := some ['3']
    lead_digits := forall_of_check (by decide)
    groups_digits := by simp
    lead_few := by decide
    fraction_digits := by
      intro f hf
      cases hf
      exact forall_of_check (by decide)
    some_digit := .inl (by decide) }
  gap := []
  percent := .afterNumber
  marks := .references []
  outer_pad := forall_of_check (by decide)
  inner_pad := forall_of_check (by decide)
  gap_space := forall_of_check (by decide)

/-- `(0.00…01)`, with a digit behind the least power of ten of the context. -/
def tinyAmount : Amount where
  outer := []
  sign := .parentheses
  inner := []
  figure := {
    lead := ['0']
    groups := []
    fraction := some (List.replicate 1000026 '0' ++ ['1'])
    lead_digits := forall_of_check (by decide)
    groups_digits := by simp
    lead_few := by decide
    fraction_digits := by
      intro f hf c hc
      cases hf
      cases List.mem_append.mp hc with
      | inl hzero => exact (List.eq_of_mem_replicate hzero) ▸ by decide
      | inr hone => exact (List.mem_singleton.mp hone) ▸ by decide
    some_digit := .inl (by decide) }
  gap := []
  percent := .none
  marks := .references []
  outer_pad := forall_of_check (by decide)
  inner_pad := forall_of_check (by decide)
  gap_space := forall_of_check (by decide)

theorem whole_replicate_zero (k : ℕ) : whole (List.replicate k '0') = 0 := by
  rw [whole_eq_zero_iff]
  intro c hc
  exact (List.eq_of_mem_replicate hc) ▸ by decide

theorem tinyAmount_magnitude : tinyAmount.figure.magnitude = 1 * 10 ^ (-1000027 : ℤ) := by
  change (whole ['0'] : ℚ) + fractional (List.replicate 1000026 '0' ++ ['1']) = _
  have hlength : ((List.replicate 1000026 '0' ++ ['1']).length : ℤ) = 1000027 := by
    rw [List.length_append, List.length_replicate]
    rfl
  rw [fractional_eq, whole_append, whole_replicate_zero, hlength,
    show whole ['0'] = 0 by decide, show whole ['1'] = 1 by decide]
  simp

/-- Inside the parentheses the percent sign costs the value, and a least digit is rounded away. -/
theorem percent_and_least_digit_are_lost :
    (percentAmount.text = "(12.3%)".toList ∧
      ¬ percentAmount.Exact (parseNumeric Nfkc.folding (some percentAmount.text))) ∧
    (tinyAmount.figure.magnitude = 1 * 10 ^ (-1000027 : ℤ) ∧
      ¬ tinyAmount.Exact (parseNumeric Nfkc.folding (some tinyAmount.text))) := by
  refine ⟨⟨by decide, ?_⟩, tinyAmount_magnitude, ?_⟩
  · have hnone : parseNumeric Nfkc.folding (some percentAmount.text) = .ok none := by
      decide +kernel
    rw [hnone]
    exact fun h => h
  · rw [tinyAmount.exact_iff Nfkc.folding (by decide),
      value_exact_iff tinyAmount (k := 1) (e := -1000027) (by norm_num)
        (tinyAmount_magnitude.trans (by simp))]
    intro h
    obtain ⟨k, hk⟩ := (h (by decide)).2
    have hscale : (10 : ℚ) ^ (-1000026 : ℤ) = 10 * 10 ^ (-1000027 : ℤ) := by
      rw [← zpow_one_add₀ (by norm_num)]
      rfl
    have hunit : (10 : ℚ) ^ (-1000027 : ℤ) ≠ 0 := zpow_ne_zero _ (by norm_num)
    rw [tinyAmount_magnitude, hscale, ← mul_assoc, mul_left_inj' hunit] at hk
    have hnat : 1 = k * 10 := by exact_mod_cast hk
    omega

end Ragent.AccountingCells
