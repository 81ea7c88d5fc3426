import Ragent.AccountingAmounts

set_option autoImplicit false

/-!
# The steps on an amount

What the footnotes, the suffix, the parentheses, the sign and the cleanup make of an amount.
-/
namespace Ragent.AccountingCells
open SpacedWords PyText FlowText Decimals NumericCells Numerals EdgeCuts CellSteps CellFrames

def Reference.toMark (r : Reference) : Mark where
  front := r.front
  inner := []
  digits := r.digits
  back := []
  close := r.close
  after := []
  front_mem := r.front_mem
  inner_space := by simp
  digits_decimal c hc := isDecimal_of_isDigit (r.digits_digits c hc)
  few := r.few
  back_space := by simp
  close_mem := r.close_mem
  after_space := by simp

theorem Reference.toMark_text (r : Reference) : r.toMark.text = r.text := by
  simp [toMark, Mark.text, text]

section
variable {w : Figure} {x y : List Char} (hx : ∀ c ∈ x, isDigit c = false)
  (hy : ∀ c ∈ y, isDecimal c = false)

theorem bracket_not_in_text {c : Char} (hc : c ∈ "([\x7b".toList) : c ∉ w.text := by
  intro hmem
  have hnone : ∀ c ∈ "([\x7b".toList, ¬ (inFigure c = true ∨ c = ',') :=
    forall_of_check (by decide)
  exact hnone c hc (w.text_chars c hmem)

include hx hy

theorem footnoteHead_stop {head : List Char} (h : footnoteHead (x ++ w.text ++ y) = some head) :
    head.any isDigit = false := by
  obtain ⟨k, hk⟩ := of_footnoteHead h
  obtain ⟨u, d, v, htext, -, hd, hv⟩ := last_digit w.text_digit
  have hone : Digits [d] := Digits.of_cons hd (by simp)
  have hafter : ∀ c ∈ v ++ y, isDecimal c = false := fun c hc =>
    (List.mem_append.mp hc).elim (hv c) (hy c)
  have hleft : (x ++ w.text ++ y).rdropWhile notDecimal = x ++ u ++ [d] := by
    rw [← rdropWhile_behind (x := x ++ u) hone hafter, htext]
    simp
  have hright : (head ++ k.text).rdropWhile notDecimal =
      head ++ k.front :: k.inner ++ k.digits := by
    rw [← rdropWhile_behind (x := head ++ k.front :: k.inner) (Mark.digits_ok k)
      (Mark.back_not_decimal k)]
    simp [Mark.text]
  rw [hk, hright] at hleft
  have hsplit : head ++ (k.front :: (k.inner ++ k.digits)) = x ++ (u ++ [d]) := by
    simpa using hleft
  cases List.append_eq_append_iff.mp hsplit with
  | inl hshort =>
    obtain ⟨a, ha, -⟩ := hshort
    rw [List.any_eq_false]
    intro c hc
    simp [hx c (by rw [ha]; exact List.mem_append_left a hc)]
  | inr hlong =>
    obtain ⟨a, -, ha⟩ := hlong
    have hmem : k.front ∈ w.text := by
      have hin : k.front ∈ u ++ [d] := by rw [ha]; simp
      rw [htext]
      exact List.mem_append_left v hin
    exact absurd hmem (bracket_not_in_text k.front_mem)

theorem stripFootnotes_bare : stripFootnotes (x ++ w.text ++ y) = (x ++ w.text ++ y, false) := by
  rw [stripFootnotes]
  split
  · rfl
  · next head hhead => rw [if_neg (by simp [footnoteHead_stop hx hy hhead])]

theorem stripFootnotes_references (notes : List Reference) :
    ∃ y', y'.rdropWhile space = y.rdropWhile space ∧
      stripFootnotes (x ++ w.text ++ y ++ notes.flatMap Reference.text) =
        (x ++ w.text ++ y', !notes.isEmpty) := by
  have hpq : ∀ c, inFigure c = true → isSpace c = false := fun c hc => (inFigure_facts hc).1
  induction notes using List.reverseRecOn with
  | nil =>
    refine ⟨y, rfl, ?_⟩
    rw [List.flatMap_nil, List.append_nil, stripFootnotes_bare hx hy]
    rfl
  | append_singleton notes r ih =>
    obtain ⟨d, hd, hdigit⟩ := w.text_digit
    have hstep : footnoteHead (x ++ w.text ++ y ++ (notes ++ [r]).flatMap Reference.text) =
        some (x ++ w.text ++ y ++ notes.flatMap Reference.text) := by
      rw [List.flatMap_append, List.flatMap_singleton, ← List.append_assoc, ← r.toMark_text]
      exact footnoteHead_mark _ _
    have hany : (x ++ w.text ++ y ++ notes.flatMap Reference.text).any isDigit = true :=
      any_isDigit hdigit (by simp [hd])
    have hempty : (!(notes ++ [r]).isEmpty) = true := by simp
    rw [stripFootnotes, hstep, hempty]
    dsimp only
    rw [if_pos hany]
    cases notes.eq_nil_or_concat with
    | inl hnil =>
      subst hnil
      refine ⟨y.rdropWhile space, List.rdropWhile_idempotent _ _, ?_⟩
      have hy' : ∀ c ∈ y.rdropWhile space, isDecimal c = false :=
        fun c hc => hy c ((List.rdropWhile_prefix space y).sublist.subset hc)
      have hdrop : (x ++ w.text ++ y).rdropWhile isSpace = x ++ w.text ++ y.rdropWhile space :=
        rdropWhile_firm w.text_firm hpq
      rw [List.flatMap_nil, List.append_nil, hdrop, stripFootnotes_bare hx hy']
    | inr hmore =>
      obtain ⟨body, r', hbody⟩ := hmore
      obtain ⟨y', hy', heq⟩ := ih
      refine ⟨y', hy', ?_⟩
      have hclose : isSpace r'.close = false := (bracket_not (bracket_of_close r'.close_mem)).1
      have hdrop : (x ++ w.text ++ y ++ notes.flatMap Reference.text).rdropWhile isSpace =
          x ++ w.text ++ y ++ notes.flatMap Reference.text := by
        have hend : x ++ w.text ++ y ++ notes.flatMap Reference.text =
            (x ++ w.text ++ y ++ body.flatMap Reference.text ++ r'.front :: r'.digits) ++
              [r'.close] := by
          rw [hbody]
          simp [Reference.text]
        rw [hend, List.rdropWhile_concat_neg _ _ _ (by simp [hclose])]
      rw [hdrop, heq]

end

theorem strip_figure {w : Figure} (x y : List Char) :
    strip (x ++ w.text ++ y) = x.dropWhile space ++ w.text ++ y.rdropWhile space :=
  trim_firm w.text_firm fun _ hc => (inFigure_facts hc).1

theorem takeSuffix_plain {rest : List Char} {c : Char} (hpercent : c ≠ '%')
    (hunit : c.toLower ∉ "bps".toList) : takeSuffix (rest ++ [c]) = (false, rest ++ [c]) := by
  have hsuffix : ∀ unit : List Char, (∀ d ∈ unit, d ∈ "bps".toList) → unit ≠ [] →
      unit.isSuffixOf (lower (rest ++ [c])) = false := by
    intro unit hmem hne
    by_contra h
    have hend : unit <:+ lower (rest ++ [c]) := List.isSuffixOf_iff_suffix.mp (by simpa using h)
    have hlast := List.dropLast_append_getLast hne
    have hlower : lower (rest ++ [c]) = lower rest ++ [c.toLower] := by simp [lower]
    rw [hlower, ← hlast, List.suffix_concat_iff] at hend
    cases hend with
    | inl hnil => simp at hnil
    | inr hsome =>
      obtain ⟨t, ht, -⟩ := hsome
      have heq : unit.getLast hne = c.toLower := by
        simpa using (List.append_inj' ht rfl).2
      exact hunit (heq ▸ hmem _ (List.getLast_mem hne))
  unfold takeSuffix
  rw [List.getLast?_concat, if_neg (by simpa using hpercent),
    hsuffix "bps".toList (forall_of_check (by decide)) (by decide),
    hsuffix "bp".toList (forall_of_check (by decide)) (by decide)]
  rfl

theorem takeSuffix_percent (rest : List Char) : takeSuffix (rest ++ ['%']) = (true, strip rest) := by
  unfold takeSuffix
  rw [List.getLast?_concat, if_pos rfl, List.dropLast_concat]

theorem peel_other {c : Char} (hc : c ≠ '(') (b : Bool) (y : List Char) :
    peel b (c :: y) = (b, c :: y) := by
  rw [peel, if_neg fun h => hc h.1]

section
variable {w : Figure} {x : List Char} (hx : ∀ c ∈ x, isPad c = true)
include hx

theorem first_plain (y : List Char) :
    ∃ c rest, x ++ w.text ++ y = c :: rest ∧ c ≠ '(' ∧ c ≠ '-' ∧ c ≠ '+' := by
  cases hcases : x with
  | cons c x' =>
    have hpad : isPad c = true := hx c (by rw [hcases]; exact List.mem_cons_self)
    refine ⟨c, x' ++ w.text ++ y, rfl, ?_, ?_, ?_⟩
    · intro heq
      rw [heq] at hpad
      exact absurd hpad (by decide)
    · intro heq
      rw [heq] at hpad
      exact absurd hpad (by decide)
    · intro heq
      rw [heq] at hpad
      exact absurd hpad (by decide)
  | nil =>
    obtain ⟨⟨c, rest, hfirst, hc⟩, -⟩ := w.text_firm
    have hfacts := inFigure_facts hc
    exact ⟨c, rest ++ y, by rw [hfirst]; rfl, hfacts.2.2.1, hfacts.2.2.2.1, hfacts.2.2.2.2.1⟩

theorem peel_plain (b : Bool) (y : List Char) :
    peel b (x ++ w.text ++ y) = (b, x ++ w.text ++ y) := by
  obtain ⟨c, rest, hfirst, hopen, -⟩ := first_plain (w := w) hx y
  rw [hfirst, peel_other hopen]

theorem takeSign_plain (b : Bool) (y : List Char) :
    takeSign b (x ++ w.text ++ y) = (b, x ++ w.text ++ y) := by
  obtain ⟨c, rest, hfirst, -, hminus, hplus⟩ := first_plain (w := w) hx y
  rw [hfirst]
  simp [takeSign, hminus, hplus]

theorem trim_pads (y : List Char) : trim isPad (x ++ w.text ++ y) = w.text ++ y.rdropWhile isPad := by
  rw [trim_firm w.text_firm fun _ hc => (inFigure_facts hc).2.1, List.dropWhile_eq_nil_iff.mpr hx,
    List.nil_append]

theorem cleaned_figure : cleaned (x ++ w.text) = w.numeral := by
  have htrim := trim_pads (w := w) hx []
  rw [List.append_nil, List.rdropWhile_nil, List.append_nil] at htrim
  have hletters : ∀ c : Char, c = 'x' ∨ c = 'X' ∨ c = '\n' → w.numeral.getLast? ≠ some c := by
    intro c hc hlast
    have hmem := List.mem_of_getLast? hlast
    obtain hc | hc | hc := hc
    · exact absurd (numeral_chars w.numeral_reads.1 c hmem) (by rw [hc]; decide)
    · exact absurd (numeral_chars w.numeral_reads.1 c hmem) (by rw [hc]; decide)
    · exact absurd (numeral_chars w.numeral_reads.1 c hmem) (by rw [hc]; decide)
  change dropMultiple ((trim isPad (x ++ w.text)).filter kept) = _
  rw [htrim, w.filter_text, dropMultiple_eq, if_neg (hletters _ (by simp))]
  unfold withoutX
  rw [if_neg]
  exact not_or.mpr ⟨hletters _ (by simp), hletters _ (by simp)⟩

end

theorem cleaned_percent (rest : List Char) : isNumeral (cleaned (rest ++ ['%'])) = false := by
  by_contra h
  have hnumeral : isNumeral (cleaned (rest ++ ['%'])) = true := by simpa using h
  exact absurd (mem_of_cleaned (c := '%') hnumeral (by simp) (by decide) (by decide))
    (by decide)

theorem peel_parens (b : Bool) (y : List Char) : peel b ('(' :: (y ++ [')'])) = peel (!b) (strip y) := by
  rw [peel, if_pos ⟨rfl, List.getLast?_concat⟩, List.dropLast_concat]

theorem dropWhile_dropWhile {p q : Char → Bool} {l : List Char}
    (h : ∀ c ∈ l, p c = true → q c = true) : (l.dropWhile p).dropWhile q = l.dropWhile q := by
  induction l with
  | nil => rfl
  | cons c l ih =>
    by_cases hc : p c = true
    · rw [List.dropWhile_cons_of_pos hc, List.dropWhile_cons_of_pos (h c List.mem_cons_self hc),
        ih fun d hd => h d (List.mem_cons_of_mem c hd)]
    · rw [List.dropWhile_cons_of_neg hc]

namespace Amount
variable (n : Amount)

def plainFront : List Char := n.outer ++ n.sign.mark.map replaced ++ n.inner

def percentInside : Bool := n.sign == .parentheses && n.percent == .afterNumber

/-- What is left behind the number when the suffix is gone. -/
def inside : List Char :=
  if n.sign = .parentheses then
    n.gap ++ (if n.percent = .afterNumber then ['%'] else []) ++ [')']
  else []

def body : List Char :=
  n.plainFront.dropWhile space ++ n.figure.text ++ n.back.rdropWhile space

theorem gap_drop : n.gap.rdropWhile space = [] := by
  apply List.rdropWhile_eq_nil_iff.mpr
  intro c hc
  rw [n.gap_space c hc]
  decide

theorem strip_gap (y : List Char) (hy : y.rdropWhile space = y) :
    strip (n.plainFront.dropWhile space ++ n.figure.text ++ y) =
      n.plainFront.dropWhile space ++ n.figure.text ++ y := by
  rw [strip_figure, List.dropWhile_idempotent, hy]

theorem takeSuffix_body : takeSuffix n.body =
    (n.percent != .none && !n.percentInside,
      n.plainFront.dropWhile space ++ n.figure.text ++ n.inside) := by
  have hgap := n.gap_drop
  have hkeep : ∀ (y : List Char) (c : Char), isSpace c = false →
      (y ++ [c]).rdropWhile space = y ++ [c] := fun y c hc =>
    List.rdropWhile_concat_neg _ _ _ (by simpa [space, Glyph.char] using hc)
  have hfigure : strip (n.plainFront.dropWhile space ++ n.figure.text ++ n.gap) =
      n.plainFront.dropWhile space ++ n.figure.text := by
    rw [strip_figure, List.dropWhile_idempotent, hgap, List.append_nil]
  have hpercent : takeSuffix (n.plainFront.dropWhile space ++ n.figure.text ++ (n.gap ++ ['%'])) =
      (true, n.plainFront.dropWhile space ++ n.figure.text) := by
    rw [← List.append_assoc, takeSuffix_percent, hfigure]
  have hclose : ∀ y : List Char,
      takeSuffix (n.plainFront.dropWhile space ++ n.figure.text ++ (y ++ [')'])) =
        (false, n.plainFront.dropWhile space ++ n.figure.text ++ (y ++ [')'])) := by
    intro y
    rw [← List.append_assoc, takeSuffix_plain (by decide) (by decide)]
  unfold body back inside percentInside
  by_cases hsign : n.sign = .parentheses
  · rw [hsign]
    cases n.percent with
    | none =>
      simp only [reduceCtorEq, if_true, if_false, List.append_nil]
      rw [hkeep _ ')' (by decide), hclose]
      rfl
    | afterNumber =>
      simp only [reduceCtorEq, if_true, if_false, List.append_nil]
      rw [hkeep _ ')' (by decide), hclose]
      rfl
    | afterParenthesis =>
      simp only [reduceCtorEq, if_true, if_false, List.append_nil]
      rw [hkeep _ '%' (by decide), ← List.append_assoc, takeSuffix_percent,
        n.strip_gap _ (hkeep _ ')' (by decide))]
      rfl
  · have hplain : (n.sign == .parentheses) = false := by simpa using hsign
    rw [hplain, if_neg hsign, if_neg hsign]
    cases n.percent with
    | none =>
      obtain ⟨-, rest, c, hlast, hc⟩ := n.figure.text_firm
      have hfacts := inFigure_facts hc
      simp only [reduceCtorEq, if_false, List.append_nil]
      rw [hgap, List.append_nil, hlast, ← List.append_assoc,
        takeSuffix_plain hfacts.2.2.2.2.2.1 hfacts.2.2.2.2.2.2]
      rfl
    | afterNumber =>
      simp only [reduceCtorEq, if_true, if_false, List.append_nil]
      rw [hkeep _ '%' (by decide), hpercent]
      rfl
    | afterParenthesis =>
      simp only [reduceCtorEq, if_true, if_false, List.append_nil]
      rw [hkeep _ '%' (by decide), hpercent]
      rfl

theorem dropPad_front : (n.plainFront.dropWhile space).dropWhile isPad =
    if n.sign = .none then [] else n.sign.mark.map replaced ++ n.inner := by
  have hmark : ∀ c ∈ n.sign.mark.map replaced, isSpace c = false ∧ isPad c = false := by
    cases n.sign <;> exact forall_of_check (by decide)
  have hspace : ∀ c ∈ n.plainFront, space c = true → isPad c = true := by
    intro c hc hsp
    unfold plainFront at hc
    rw [List.mem_append, List.mem_append] at hc
    obtain (hc | hc) | hc := hc
    · exact n.outer_pad c hc
    · rw [show space c = isSpace c from rfl, (hmark c hc).1] at hsp
      cases hsp
    · exact n.inner_pad c hc
  rw [dropWhile_dropWhile hspace]
  unfold plainFront
  rw [List.append_assoc, List.dropWhile_append_of_pos n.outer_pad]
  cases hsign : n.sign with
  | none => exact List.dropWhile_eq_nil_iff.mpr n.inner_pad
  | plus => rfl
  | hyphen => rfl
  | minus => rfl
  | parentheses => rfl

theorem inner_drop : ∀ c ∈ n.inner.dropWhile space, isPad c = true :=
  fun c hc => n.inner_pad c ((List.dropWhile_suffix space).sublist.subset hc)

theorem readNumber_core (h : n.percentInside = false) :
    readNumber (n.plainFront.dropWhile space ++ n.figure.text ++ n.inside) =
      (n.isNegative, n.figure.numeral) := by
  have hdrop : (n.plainFront.dropWhile space ++ n.figure.text ++ n.inside).dropWhile isPad =
      (if n.sign = .none then [] else n.sign.mark.map replaced ++ n.inner) ++ n.figure.text ++
        n.inside := by
    rw [dropWhile_firm n.figure.text_firm fun _ hc => (inFigure_facts hc).2.1, n.dropPad_front]
  have hstrip : strip (n.inner ++ n.figure.text) = n.inner.dropWhile space ++ n.figure.text := by
    have hfigure := strip_figure (w := n.figure) n.inner []
    rwa [List.append_nil, List.rdropWhile_nil, List.append_nil] at hfigure
  have hcleaned : cleaned (n.inner.dropWhile space ++ n.figure.text) = n.figure.numeral :=
    cleaned_figure n.inner_drop
  unfold readNumber
  rw [hdrop]
  unfold inside isNegative
  cases hsign : n.sign with
  | none =>
    have hpeel := peel_plain (w := n.figure) (x := []) (by simp) false []
    have hsigned := takeSign_plain (w := n.figure) (x := []) (by simp) false []
    have hclean := cleaned_figure (w := n.figure) (x := []) (by simp)
    simp only [List.nil_append, List.append_nil] at hpeel hsigned hclean
    simp [hpeel, hsigned, hclean]
  | plus =>
    have hpeel := peel_other (show '+' ≠ '(' by decide) false (n.inner ++ n.figure.text)
    simp [Sign.mark, show replaced '+' = '+' by decide, hpeel, takeSign, hstrip, hcleaned]
  | hyphen =>
    have hpeel := peel_other (show '-' ≠ '(' by decide) false (n.inner ++ n.figure.text)
    simp [Sign.mark, show replaced '-' = '-' by decide, hpeel, takeSign, hstrip, hcleaned]
  | minus =>
    have hpeel := peel_other (show '-' ≠ '(' by decide) false (n.inner ++ n.figure.text)
    simp [Sign.mark, show replaced '−' = '-' by decide, hpeel, takeSign, hstrip, hcleaned]
  | parentheses =>
    have hplain : n.percent ≠ .afterNumber := by simpa [percentInside, hsign] using h
    have hfigure : strip (n.inner ++ n.figure.text ++ n.gap) =
        n.inner.dropWhile space ++ n.figure.text := by
      rw [strip_figure, n.gap_drop, List.append_nil]
    have hpeel := peel_plain (w := n.figure) n.inner_drop true []
    have hsigned := takeSign_plain (w := n.figure) n.inner_drop true []
    rw [List.append_nil] at hpeel hsigned
    have hparens := peel_parens false (n.inner ++ n.figure.text ++ n.gap)
    rw [hfigure, Bool.not_false, hpeel] at hparens
    have hshape : ('(' :: n.inner) ++ n.figure.text ++ (n.gap ++ [')']) =
        '(' :: (n.inner ++ n.figure.text ++ n.gap ++ [')']) := by simp
    simp only [Sign.mark, List.map_cons, List.map_nil, show replaced '(' = '(' by decide, hplain,
      reduceCtorEq, if_true, if_false, List.append_nil, List.singleton_append, hshape, hparens,
      hsigned, hcleaned]
    rfl

theorem readNumber_inside (h : n.percentInside = true) :
    isNumeral (readNumber (n.plainFront.dropWhile space ++ n.figure.text ++ n.inside)).2 = false := by
  have hstyle : n.sign = .parentheses ∧ n.percent = .afterNumber := by
    simpa [percentInside] using h
  have hdrop : (n.plainFront.dropWhile space ++ n.figure.text ++ n.inside).dropWhile isPad =
      '(' :: (n.inner ++ n.figure.text ++ (n.gap ++ ['%']) ++ [')']) := by
    rw [dropWhile_firm n.figure.text_firm fun _ hc => (inFigure_facts hc).2.1, n.dropPad_front]
    simp [inside, hstyle.1, hstyle.2, Sign.mark, show replaced '(' = '(' by decide]
  have hstrip : strip (n.inner ++ n.figure.text ++ (n.gap ++ ['%'])) =
      n.inner.dropWhile space ++ n.figure.text ++ (n.gap ++ ['%']) := by
    rw [strip_figure, List.rdropWhile_concat_neg _ _ _ (by decide)]
  unfold readNumber
  simp only [hdrop, peel_parens, hstrip, peel_plain n.inner_drop, takeSign_plain n.inner_drop]
  rw [← List.append_assoc]
  exact cleaned_percent _

end Amount

end Ragent.AccountingCells
