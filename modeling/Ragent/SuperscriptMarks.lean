import Ragent.CellFrames

set_option autoImplicit false

/-!
# Superscripts behind the last digit

A superscript digit at the end of a cell is a mark. One with anything behind it becomes a digit of the
numeral.
-/
namespace Ragent.SuperscriptMarks
open SpacedWords PyText FlowText Decimals NumericCells Numerals EdgeCuts CellSteps CellFrames

/-- The cell up to the last digit of its numeral, without the white space in front. -/
def upto (s : List Char) : List Char := (stripFootnotes (strip s)).1.rdropWhile notDecimal

def behind (s : List Char) : List Char := (strip s).drop (upto s).length

/-- The cell with marks put in behind the last digit of its numeral. -/
def insertMarks (s marks : List Char) : List Char :=
  s.takeWhile space ++ (upto s ++ marks ++ behind s) ++ (s.dropWhile space).rtakeWhile space

def digitsOf (marks : List Char) : List Char :=
  marks.map fun c => (superscriptDigits.lookup c).getD c

def markedNumeral (numeral marks : List Char) : List Char :=
  numeral.rdropWhile notDecimal ++ digitsOf marks ++ numeral.rtakeWhile notDecimal

theorem Mark.front_not_decimal (k : Mark) (head : List Char) :
    ∃ rest c, head ++ k.front :: k.inner = rest ++ [c] ∧ isDecimal c = false := by
  cases k.inner.eq_nil_or_concat with
  | inl hnil =>
    exact ⟨head, k.front, by rw [hnil], (bracket_not (bracket_of_front k.front_mem)).2⟩
  | inr hlast =>
    obtain ⟨body, c, hbody⟩ := hlast
    refine ⟨head ++ k.front :: body, c, by simp [hbody], ?_⟩
    have hspace := k.inner_space c (by rw [hbody]; simp)
    by_contra hd
    rw [not_isSpace_of_isDecimal (by simpa using hd)] at hspace
    cases hspace

/-- A footnote whose digits were not there before needs the last digit itself. -/
theorem footnoteHead_inserted {u v m head : List Char} {d : Char} (hd : isDecimal d = true)
    (hm : ∀ c ∈ m, isDecimal c = true) (hmne : m ≠ []) (hv : ∀ c ∈ v, isDecimal c = false)
    (h : footnoteHead (u ++ (d :: m) ++ v) = some head) :
    footnoteHead (u ++ [d] ++ v) = some head := by
  obtain ⟨k, hk⟩ := of_footnoteHead h
  have hrun := Digits.of_cons hd hm
  have htext : u ++ (d :: m) ++ v =
      (head ++ k.front :: k.inner) ++ k.digits ++ (k.back ++ k.close :: k.after) := by
    rw [hk]
    simp [Mark.text]
  have hfront : u ++ (d :: m) = (head ++ k.front :: k.inner) ++ k.digits := by
    rw [← rdropWhile_behind (x := u) hrun hv, htext,
      rdropWhile_behind (Mark.digits_ok k) (Mark.back_not_decimal k)]
  have hback : v = k.back ++ k.close :: k.after := by
    rw [hfront] at htext
    exact List.append_cancel_left htext
  obtain ⟨rest, c, hlast, hc⟩ := Mark.front_not_decimal k head
  -- the run of digits is all of the footnote's digits
  have hsame : u = head ++ k.front :: k.inner ∧ d :: m = k.digits := by
    cases List.append_eq_append_iff.mp hfront with
    | inl hshort =>
      obtain ⟨a, ha, hrest⟩ := hshort
      cases a.eq_nil_or_concat with
      | inl hnil =>
        subst hnil
        exact ⟨by simpa using ha.symm, by simpa using hrest⟩
      | inr hmore =>
        obtain ⟨body, c', hbody⟩ := hmore
        have heq : rest ++ [c] = u ++ body ++ [c'] := by
          rw [← hlast, ha, hbody, List.concat_eq_append, List.append_assoc]
        have hc' : c = c' := by simpa using (List.append_inj' heq rfl).2
        have hdigit : isDecimal c' = true := hrun.2 c' (by rw [hrest, hbody]; simp)
        rw [← hc', hc] at hdigit
        cases hdigit
    | inr hlong =>
      obtain ⟨a, ha, hrest⟩ := hlong
      have hlength := congrArg List.length hrest
      have hfew := k.few.2
      have hpos := List.length_pos_of_ne_nil hmne
      rw [List.length_append, List.length_cons] at hlength
      have hnil : a = [] := by
        apply List.eq_nil_of_length_eq_zero
        omega
      subst hnil
      exact ⟨by simpa using ha, by simpa using hrest.symm⟩
  have hmark : u ++ [d] ++ v = head ++ Mark.text { k with
      digits := [d], digits_decimal := by simpa using hd, few := by simp } := by
    rw [hsame.1, hback]
    simp [Mark.text]
  rw [hmark]
  exact footnoteHead_mark head _

theorem stripFootnotes_stop {u v m : List Char} {d : Char} (hd : isDecimal d = true)
    (hm : ∀ c ∈ m, isDecimal c = true) (hmne : m ≠ []) (hv : ∀ c ∈ v, isDecimal c = false)
    (hnone : ∀ head ∈ footnoteHead (u ++ [d] ++ v), head.any isDigit = false) :
    (stripFootnotes (u ++ (d :: m) ++ v)).1 = u ++ (d :: m) ++ v := by
  rw [stripFootnotes]
  split
  · rfl
  · next head hhead =>
    have hhead' := footnoteHead_inserted hd hm hmne hv hhead
    rw [if_neg (by simp [hnone head hhead'])]

/-- The footnotes behind the last digit are the same with marks in front of them. -/
theorem stripFootnotes_inserted {text u v₀ m : List Char} {d : Char} (hd : isDecimal d = true)
    (hm : ∀ c ∈ m, isDecimal c = true) (hmne : m ≠ []) (hv₀ : ∀ c ∈ v₀, isDecimal c = false)
    (h : (stripFootnotes text).1 = u ++ [d] ++ v₀) {v : List Char} (htext : text = u ++ [d] ++ v) :
    (stripFootnotes (u ++ (d :: m) ++ v)).1 = u ++ (d :: m) ++ v₀ := by
  have hpq : ∀ c, isDecimal c = true → isSpace c = false := fun c => not_isSpace_of_isDecimal
  induction text using stripFootnotes.induct generalizing v with
  | case1 text hnone =>
    rw [stripFootnotes, hnone, htext] at h
    have hv := List.append_cancel_left h
    subst hv
    exact stripFootnotes_stop hd hm hmne hv₀ (by simp [← htext, hnone])
  | case2 text head hsome hdigit ih =>
    rw [stripFootnotes, hsome] at h
    dsimp only at h
    rw [if_pos hdigit] at h
    obtain ⟨k, hk⟩ := of_footnoteHead hsome
    obtain ⟨back, hback, -⟩ := stripFootnotes_split (head.rdropWhile isSpace)
    have hspace := List.rdropWhile_append_rtakeWhile (p := isSpace) (l := head)
    rw [hback, h] at hspace
    -- the footnote is behind the last digit
    obtain ⟨w, hw⟩ : ∃ w, head = u ++ [d] ++ w :=
      ⟨v₀ ++ back ++ head.rtakeWhile isSpace, hspace.symm.trans (by simp)⟩
    have hv : v = w ++ k.text := by
      rw [htext, hw, List.append_assoc (u ++ [d])] at hk
      exact List.append_cancel_left hk
    have hstep : footnoteHead (u ++ (d :: m) ++ v) = some (u ++ (d :: m) ++ w) := by
      rw [hv, ← List.append_assoc]
      exact footnoteHead_mark _ k
    have hany : (u ++ (d :: m) ++ w).any isDigit = true := any_isDigit hd (by simp)
    rw [stripFootnotes, hstep]
    dsimp only
    rw [if_pos hany, rdropWhile_firm (Digits.of_cons hd hm).firm hpq]
    have hdrop : head.rdropWhile isSpace = u ++ [d] ++ w.rdropWhile isSpace := by
      rw [hw, rdropWhile_firm (Digits.of_cons hd (m := []) (by simp)).firm hpq]
    exact ih h hdrop
  | case3 text head hsome hdigit =>
    rw [stripFootnotes, hsome] at h
    dsimp only at h
    rw [if_neg hdigit, htext] at h
    have hv := List.append_cancel_left h
    subst hv
    refine stripFootnotes_stop hd hm hmne hv₀ ?_
    rw [← htext, hsome]
    intro head' hhead'
    cases hhead'
    simpa using hdigit

theorem digit_mem {text : List Char} (h : isNumeral (numeralOf text) = true) :
    ∃ d ∈ (stripFootnotes text).1, isDecimal d = true := by
  obtain ⟨d, hd, hdigit⟩ := digit_of_numeral h
  obtain ⟨part, tail, hcut, hpart, -⟩ := cleaned_split h
  have hmem : d ∈ part ++ tail := by
    have hkept : d ∈ part.filter kept := by rw [hpart]; exact hd
    exact List.mem_append_left tail (List.mem_filter.mp hkept).1
  have hcore : Cut removable (stripFootnotes text).1 (coreOf text) :=
    (strip_cut _).trans (takeSuffix_cut _)
  have hinfix := (hcut.isInfix.trans (innerOf_cut (coreOf text)).isInfix).trans hcore.isInfix
  exact ⟨d, hinfix.subset hmem, hdigit⟩

theorem finish_footnotes (text : List Char) :
    finish (stripFootnotes text).1 = (decide (Negated text), numeralOf text) :=
  readNumber_eq (coreOf text)

theorem finish_around {text : List Char} (h : isNumeral (numeralOf text) = true) :
    ∃ u d v₀ u₁ v₁, (stripFootnotes text).1 = u ++ [d] ++ v₀ ∧
      (stripFootnotes text).1.rdropWhile notDecimal = u ++ [d] ∧ isDecimal d = true ∧
      (∀ c ∈ v₀, isDecimal c = false) ∧ (∀ c ∈ v₁, isDecimal c = false) ∧
      numeralOf text = u₁ ++ [d] ++ v₁ ∧
      ∀ m, Digits m → finish (u ++ m ++ v₀) = (decide (Negated text), u₁ ++ m ++ v₁) := by
  obtain ⟨u, d, v₀, hfootnotes, hupto, hd, hv₀⟩ := last_digit (digit_mem h)
  obtain ⟨b, u₁, v₁, -, hv₁, hfinish⟩ := finish_frames false u v₀
  have hcell := hfinish [d] (Digits.of_cons hd (by simp))
  dsimp only at hcell
  rw [← hfootnotes, finish_footnotes, Prod.mk.injEq] at hcell
  have hnil : v₁.filter isDecimal = [] := by
    rw [hv₁]
    exact List.filter_eq_nil_iff.mpr fun c hc => by simp [hv₀ c hc]
  refine ⟨u, d, v₀, u₁, v₁, hfootnotes, hupto, hd, hv₀, ?_, hcell.2, ?_⟩
  · intro c hc
    simpa using List.filter_eq_nil_iff.mp hnil c hc
  · intro m hm
    rw [hcell.1]
    exact hfinish m hm

/-- The numeral gets the digits, and nothing else changes. -/
theorem readable_inserted {text v m : List Char} (h : isNumeral (numeralOf text) = true)
    (htext : text = (stripFootnotes text).1.rdropWhile notDecimal ++ v)
    (hm : ∀ c ∈ m, isDecimal c = true) (hmne : m ≠ []) :
    let text' := (stripFootnotes text).1.rdropWhile notDecimal ++ m ++ v
    let numeral := numeralOf text
    numeral.rdropWhile notDecimal ≠ [] ∧ Readable text' ∧ (Negated text' ↔ Negated text) ∧
      numeralOf text' = numeral.rdropWhile notDecimal ++ m ++ numeral.rtakeWhile notDecimal := by
  obtain ⟨u, d, v₀, u₁, v₁, hfootnotes, hupto, hd, hv₀, hv₁, hbefore, hfinish⟩ := finish_around h
  rw [hupto] at htext ⊢
  have htext' : u ++ [d] ++ m ++ v = u ++ (d :: m) ++ v := by simp
  have hone : Digits [d] := Digits.of_cons hd (by simp)
  have hstrip := stripFootnotes_inserted hd hm hmne hv₀ hfootnotes htext
  have hafter := hfinish (d :: m) (Digits.of_cons hd hm)
  rw [← hstrip, finish_footnotes, Prod.mk.injEq] at hafter
  have hdrop : (numeralOf text).rdropWhile notDecimal = u₁ ++ [d] := by
    rw [hbefore, rdropWhile_behind hone hv₁]
  have htake : (numeralOf text).rtakeWhile notDecimal = v₁ := by
    rw [hbefore, rtakeWhile_behind hone hv₁]
  dsimp only
  rw [htext', hdrop, htake]
  have hnumeral : isNumeral (u₁ ++ [d] ++ m ++ v₁) = true := by
    refine (numeral_insert ?_ (by simp) hv₁ hm).1
    rw [← hbefore]
    exact h
  have heq : numeralOf (u ++ (d :: m) ++ v) = u₁ ++ [d] ++ m ++ v₁ := by
    rw [hafter.2]
    simp
  refine ⟨by simp, ⟨?_, ?_, ?_, heq ▸ hnumeral⟩, ?_, heq⟩
  · exact isNull_of_digit hd (by simp)
  · have hmem : d ∈ bodyOf (u ++ (d :: m) ++ v) := by
      unfold bodyOf
      rw [hstrip]
      exact (Cut.trim space _).mem (by simp) (not_isSpace_of_isDecimal hd)
    exact List.ne_nil_of_mem hmem
  · refine isNull_of_digit hd ?_
    unfold bodyOf
    rw [hstrip]
    exact (Cut.trim space _).mem (by simp) (not_isSpace_of_isDecimal hd)
  · rw [← decide_eq_decide, hafter.1]

section
variable {marks : List Char} (hmarks : ∀ c ∈ marks, (superscriptDigits.lookup c).isSome)
include hmarks

theorem digitsOf_facts : ∀ c ∈ digitsOf marks, isDecimal c = true ∧ isAscii c = true := by
  intro c hc
  obtain ⟨mark, hmark, heq⟩ := List.mem_map.mp hc
  obtain ⟨d, hd⟩ := Option.isSome_iff_exists.mp (hmarks mark hmark)
  rw [hd, Option.getD_some] at heq
  have hfacts := superscript_facts hd
  exact heq ▸ ⟨hfacts.2.2.1, hfacts.2.2.2.1⟩

theorem digitsOf_zero_iff :
    (∀ c ∈ digitsOf marks, digitValue c = 0) ↔ ∀ c ∈ marks, c = '⁰' := by
  unfold digitsOf
  rw [List.forall_mem_map]
  refine forall₂_congr fun c hc => ?_
  obtain ⟨d, hd⟩ := Option.isSome_iff_exists.mp (hmarks c hc)
  rw [hd, Option.getD_some]
  exact (superscript_facts hd).2.2.2.2

theorem normalize_marked (nfkc : Nfkc) {x y : List Char} (hx : ∀ c ∈ x, isAscii c = true)
    (hy : ∀ c ∈ y, isAscii c = true) :
    nfkc.normalize (x ++ marks ++ y) = x ++ digitsOf marks ++ y := by
  have hself : ∀ l : List Char, (∀ c ∈ l, isAscii c = true) →
      l.map (fun c => (superscriptDigits.lookup c).getD c) = l := by
    intro l hl
    conv_rhs => rw [← List.map_id l]
    exact List.map_congr_left fun c hc => by rw [lookup_ascii (hl c hc)]; rfl
  rw [nfkc.folds, List.map_append, List.map_append, hself x hx, hself y hy]
  · rfl
  · intro c hc
    simp only [List.mem_append] at hc
    obtain (hc | hc) | hc := hc
    · exact .inl (hx c hc)
    · exact .inr (.inr (.inr (hmarks c hc)))
    · exact .inl (hy c hc)

end

def notSpace (c : Char) : Bool := !isSpace c

theorem strip_around {lead x trail : List Char} (hlead : ∀ c ∈ lead, space c = true)
    (htrail : ∀ c ∈ trail, space c = true) (hx : Firm notSpace x) :
    strip (lead ++ x ++ trail) = x := by
  have hpq : ∀ c, notSpace c = true → space c = false := fun c hc => by
    simpa [notSpace, space, Glyph.char] using hc
  have hstrip : strip (lead ++ x ++ trail) =
      lead.dropWhile space ++ x ++ trail.rdropWhile space := trim_firm hx hpq
  rw [hstrip, List.dropWhile_eq_nil_iff.mpr hlead, List.rdropWhile_eq_nil_iff.mpr htrail,
    List.nil_append, List.append_nil]

theorem upto_append_behind (s : List Char) : strip s = upto s ++ behind s := by
  obtain ⟨back, hback, -⟩ := stripFootnotes_split (strip s)
  have hfront : upto s <+: strip s :=
    (List.rdropWhile_prefix notDecimal _).trans ⟨back, hback.symm⟩
  exact (List.prefix_append_drop hfront)

theorem upto_ends {s : List Char} (h : isNumeral (numeralOf (strip s)) = true) :
    ∃ u d, upto s = u ++ [d] ∧ isDecimal d = true ∧
      ∃ w, (numeralOf (strip s)).rdropWhile notDecimal = w ++ [d] := by
  obtain ⟨u, d, v₀, u₁, v₁, -, hupto, hd, -, hv₁, hcell, -⟩ := finish_around h
  have hone : Digits [d] := Digits.of_cons hd (by simp)
  exact ⟨u, d, hupto, hd, u₁, by rw [hcell, rdropWhile_behind hone hv₁]⟩

section
variable {s marks : List Char} (hnumeral : isNumeral (numeralOf (strip s)) = true)
  (hmarks : ∀ c ∈ marks, (superscriptDigits.lookup c).isSome)
include hnumeral

theorem marked_firm {m : List Char} (hm : ∀ c ∈ m, isSpace c = false) :
    Firm notSpace (upto s ++ m ++ behind s) := by
  obtain ⟨u, d, hupto, hd, -⟩ := upto_ends hnumeral
  have hsplit := upto_append_behind s
  constructor
  · cases hfirst : upto s with
    | nil => simp [hupto] at hfirst
    | cons c rest =>
      refine ⟨c, rest ++ m ++ behind s, rfl, ?_⟩
      rw [hfirst] at hsplit
      simp [notSpace, first_of_strip hsplit]
  · cases (behind s).eq_nil_or_concat with
    | inl hnil =>
      cases m.eq_nil_or_concat with
      | inl hnil' =>
        exact ⟨u, d, by rw [hnil, hnil', hupto]; simp,
          by simp [notSpace, not_isSpace_of_isDecimal hd]⟩
      | inr hlast =>
        obtain ⟨body, c, hbody⟩ := hlast
        refine ⟨upto s ++ body, c, by rw [hnil, hbody]; simp, ?_⟩
        simp [notSpace, hm c (by rw [hbody]; simp)]
    | inr hlast =>
      obtain ⟨body, c, hbody⟩ := hlast
      refine ⟨upto s ++ m ++ body, c, by rw [hbody]; simp, ?_⟩
      have hend : strip s = upto s ++ body ++ [c] := by rw [hsplit, hbody]; simp
      simp [notSpace, last_of_strip hend]

include hmarks

theorem strip_insertMarks : strip (insertMarks s marks) = upto s ++ marks ++ behind s :=
  strip_around (fun _ hc => List.mem_takeWhile_imp hc) (fun _ hc => List.mem_rtakeWhile_imp hc)
    (marked_firm hnumeral (marks_not_space hmarks))

variable (hs : ∀ c ∈ s, isAscii c = true)
include hs

theorem marked_text_end (nfkc : Nfkc) (hbehind : behind s = []) :
    normalised nfkc (withoutSuperscript (strip (insertMarks s marks))) = strip s := by
  have hsplit := upto_append_behind s
  have hoff : withoutSuperscript (upto s ++ marks) = withoutSuperscript (upto s) := by
    unfold withoutSuperscript List.rdropWhile
    rw [List.reverse_append, List.dropWhile_append_of_pos]
    intro c hc
    simp [marks_superscript hmarks c (List.mem_reverse.mp hc)]
  rw [hbehind, List.append_nil] at hsplit
  rw [strip_insertMarks hnumeral hmarks, hbehind, List.append_nil, hoff, ← hsplit,
    withoutSuperscript_ascii hs, normalised_ascii nfkc (ascii_strip hs), strip_strip]

theorem marked_text (nfkc : Nfkc) (hbehind : behind s ≠ []) :
    normalised nfkc (withoutSuperscript (strip (insertMarks s marks))) =
      upto s ++ digitsOf marks ++ behind s := by
  have hsplit := upto_append_behind s
  have hascii := ascii_strip hs
  rw [hsplit] at hascii
  have hupto : ∀ c ∈ upto s, isAscii c = true := fun c hc => hascii c (List.mem_append_left _ hc)
  have hback : ∀ c ∈ behind s, isAscii c = true := fun c hc => hascii c (List.mem_append_right _ hc)
  obtain ⟨body, last, hlast⟩ := (behind s).eq_nil_or_concat.resolve_left hbehind
  rw [List.concat_eq_append] at hlast
  have hend : strip s = upto s ++ body ++ [last] := by rw [hsplit, hlast, List.append_assoc]
  have hoff : withoutSuperscript (upto s ++ marks ++ behind s) = upto s ++ marks ++ behind s := by
    apply withoutSuperscript_of_last
    intro rest c hc
    have heq : c = last := by
      rw [hlast, ← List.append_assoc] at hc
      simpa using ((List.append_inj' hc rfl).2).symm
    rw [heq]
    refine ⟨isSuperscript_ascii (hback last (by rw [hlast]; simp)), ?_⟩
    intro hspace
    have hfalse := last_of_strip hend
    rw [hspace] at hfalse
    exact absurd hfalse (by decide)
  have hdigits := digitsOf_facts hmarks
  have hreplaced : (upto s ++ digitsOf marks ++ behind s).map replaced =
      upto s ++ digitsOf marks ++ behind s := by
    apply map_replaced_ascii
    intro c hc
    simp only [List.mem_append] at hc
    obtain (hc | hc) | hc := hc
    · exact hupto c hc
    · exact (hdigits c hc).2
    · exact hback c hc
  have hfirm := marked_firm hnumeral fun c hc => not_isSpace_of_isDecimal (hdigits c hc).1
  have hstrip : strip ([] ++ (upto s ++ digitsOf marks ++ behind s) ++ []) = _ :=
    strip_around (by simp) (by simp) hfirm
  rw [List.nil_append, List.append_nil] at hstrip
  rw [strip_insertMarks hnumeral hmarks, hoff]
  unfold normalised
  rw [normalize_marked hmarks nfkc hupto hback, hreplaced, hstrip]

end

theorem value_eq_iff {text text' : List Char} {value : Decimal}
    (hnumeral : isNumeral (numeralOf text) = true) (hnumeral' : isNumeral (numeralOf text') = true)
    (hsign : Negated text' ↔ Negated text) (h : valueOf (cellOf false text) = .ok value) :
    (∃ value', valueOf (cellOf false text') = .ok value' ∧ value'.value = value.value) ↔
      if Negated text then defaultContext.nearest (decimalOf (numeralOf text')) =
        defaultContext.nearest (decimalOf (numeralOf text))
      else reading (numeralOf text') = reading (numeralOf text) := by
  by_cases hnegated : Negated text
  · have hminus : defaultContext.minus (decimalOf (numeralOf text)) = .ok value :=
      (if_pos (decide_eq_true hnegated)).symm.trans h
    have hminus' : valueOf (cellOf false text') =
        defaultContext.minus (decimalOf (numeralOf text')) :=
      if_pos (decide_eq_true (hsign.mpr hnegated))
    have hvalue := of_minus rfl hminus
    rw [if_pos hnegated, hminus', hvalue.1, hvalue.2.1]
    constructor
    · intro hsome
      obtain ⟨value', hok, heq⟩ := hsome
      have hvalue' := of_minus rfl hok
      rw [hvalue'.1, hvalue'.2.1] at heq
      exact neg_injective heq
    · intro heq
      have hsmall := minus_ok_iff.mp ⟨value, hminus⟩
      rw [← heq] at hsmall
      obtain ⟨value', hok⟩ := minus_ok_iff.mpr hsmall
      have hvalue' := of_minus rfl hok
      exact ⟨value', hok, by rw [hvalue'.1, hvalue'.2.1, heq]⟩
  · have hplain : valueOf (cellOf false text) = .ok (decimalOf (numeralOf text)) :=
      if_neg (by simpa [cellOf] using hnegated)
    have hplain' : valueOf (cellOf false text') = .ok (decimalOf (numeralOf text')) :=
      if_neg (by simpa [cellOf] using mt hsign.mp hnegated)
    rw [hplain] at h
    cases h
    rw [if_neg hnegated, hplain', decimalOf_value hnumeral]
    simp only [Except.ok.injEq, exists_eq_left', decimalOf_value hnumeral']

/-- Superscripts behind the last digit leave the value of a cell as it is, or make it none, exactly
    where nothing but white space is behind them, or where as digits they are lost: all of them zero
    behind a point or on zero, or rounded away under a negation. -/
theorem superscripts_are_ignored_iff (nfkc : Nfkc) {s : List Char} (hs : ∀ c ∈ s, isAscii c = true)
    {number : ParsedNumber} (hnumber : parseNumeric nfkc (some s) = .ok (some number))
    {marks : List Char} (hmarks : ∀ c ∈ marks, (superscriptDigits.lookup c).isSome)
    (hne : marks ≠ []) :
    NoneOr (fun value => value.value = number.value.value)
        (parseNumeric nfkc (some (insertMarks s marks))) ↔
      behind s = [] ∨
        if Negated (strip s) then
          defaultContext.nearest (decimalOf (markedNumeral (numeralOf (strip s)) marks)) =
            defaultContext.nearest (decimalOf (numeralOf (strip s)))
        else (∀ c ∈ marks, c = '⁰') ∧ ('.' ∈ (numeralOf (strip s)).rdropWhile notDecimal ∨
          reading (numeralOf (strip s)) = 0) := by
  obtain ⟨hreadable, hvalue⟩ := of_parseNumeric_ascii hs hnumber
  have hnumeral := hreadable.2.2.2
  rw [parseNumeric_eq, noneOr_iff]
  by_cases hbehind : behind s = []
  · rw [marked_text_end hnumeral hmarks hs nfkc hbehind]
    exact iff_of_true (fun _ => ⟨number.value, hvalue, rfl⟩) (.inl hbehind)
  · have hdigits : ∀ c ∈ digitsOf marks, isDecimal c = true :=
      fun c hc => (digitsOf_facts hmarks c hc).1
    have hdigitsne : digitsOf marks ≠ [] := by simpa [digitsOf] using hne
    obtain ⟨hfront, hread, hsign, hmarked⟩ :=
      readable_inserted hnumeral (upto_append_behind s) hdigits hdigitsne
    change Readable (upto s ++ digitsOf marks ++ behind s) at hread
    change Negated (upto s ++ digitsOf marks ++ behind s) ↔ _ at hsign
    change numeralOf (upto s ++ digitsOf marks ++ behind s) = markedNumeral _ marks at hmarked
    rw [marked_text hnumeral hmarks hs nfkc hbehind, or_iff_right hbehind, imp_iff_right hread,
      value_eq_iff hnumeral hread.2.2.2 hsign hvalue, hmarked]
    have hsplit : (numeralOf (strip s)).rdropWhile notDecimal ++
        (numeralOf (strip s)).rtakeWhile notDecimal = numeralOf (strip s) :=
      List.rdropWhile_append_rtakeWhile
    have hbare : ∀ c ∈ (numeralOf (strip s)).rtakeWhile notDecimal, isDecimal c = false := by
      intro c hc
      simpa [notDecimal] using List.mem_rtakeWhile_imp hc
    have hinsert := reading_insert_iff (hsplit.symm ▸ hnumeral) hfront hbare hdigits hdigitsne
    rw [hsplit, digitsOf_zero_iff hmarks] at hinsert
    by_cases hnegated : Negated (strip s)
    · rw [if_pos hnegated, if_pos hnegated]
    · rw [if_neg hnegated, if_neg hnegated]
      exact hinsert

theorem mark_at_the_end_is_ignored :
    NoneOr (fun value => value.value = (⟨false, 1234, 0⟩ : Decimal).value)
      (parseNumeric Nfkc.folding (some (insertMarks "$1,234 ".toList ['¹', '²']))) := by
  have hnumber : parseNumeric Nfkc.folding (some "$1,234 ".toList) =
      .ok (some ⟨⟨false, 1234, 0⟩, false, false, false⟩) := by decide +kernel
  have hmarks : ∀ c ∈ ['¹', '²'], (superscriptDigits.lookup c).isSome := forall_of_check (by decide)
  exact (superscripts_are_ignored_iff Nfkc.folding (forall_of_check (by decide)) hnumber hmarks
    (by decide +kernel)).mpr (.inl (by decide +kernel))

/-- In front of a closing parenthesis the mark is read as a digit. -/
theorem mark_in_parentheses_is_a_digit :
    parseNumeric Nfkc.folding (some "(12)".toList) = .ok (some ⟨⟨true, 12, 0⟩, false, true, false⟩) ∧
      insertMarks "(12)".toList ['¹'] = "(12¹)".toList ∧
      ¬ NoneOr (fun value => value.value = (⟨true, 12, 0⟩ : Decimal).value)
        (parseNumeric Nfkc.folding (some "(12¹)".toList)) := by
  have hvalue : parseNumeric Nfkc.folding (some "(12¹)".toList) =
      .ok (some ⟨⟨true, 121, 0⟩, false, true, false⟩) := by decide +kernel
  refine ⟨by decide +kernel, by decide +kernel, ?_⟩
  rw [hvalue]
  norm_num [NoneOr, Decimal.value, Decimal.magnitude]

end Ragent.SuperscriptMarks
