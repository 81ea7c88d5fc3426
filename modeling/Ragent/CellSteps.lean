import Ragent.EdgeCuts
import Ragent.Numerals

set_option autoImplicit false

/-!
# The steps of `parse_numeric`

Every step up to the cleanup cuts the text at its ends.
-/
namespace Ragent.CellSteps
open SpacedWords PyText FlowText Decimals NumericCells Numerals EdgeCuts

/-- What a step may cut off: white space, digits and brackets of a footnote, a percent sign or the
    letters of basis points, currency, parentheses and a sign. -/
def removable (c : Char) : Bool :=
  isSpace c || isDecimal c || isPad c || c ∈ "()[]\x7b\x7d%+-".toList || c.toLower ∈ "bps".toList

theorem removable_of_isSpace {c : Char} (h : isSpace c = true) : removable c = true := by
  simp [removable, h]

theorem forall_of_check {P : Char → Prop} [DecidablePred P] {l : List Char}
    (h : (l.all fun c => decide (P c)) = true) : ∀ c ∈ l, P c :=
  fun c hc => of_decide_eq_true (List.all_eq_true.mp h c hc)

theorem ascii_cases {P : Char → Prop} (h : ∀ n < 128, P (Char.ofNat n)) {c : Char}
    (hc : isAscii c = true) : P c := by
  rw [← Char.ofNat_toNat c]
  exact h c.toNat (of_decide_eq_true hc)

theorem isUpper_iff {c : Char} : c.isUpper = true ↔ 65 ≤ c.toNat ∧ c.toNat ≤ 90 := by
  change decide (c.val ≥ 'A'.val ∧ c.val ≤ 'Z'.val) = true ↔ _
  rw [decide_eq_true_eq, ge_iff_le, UInt32.le_iff_toNat_le, UInt32.le_iff_toNat_le]
  rfl

theorem toLower_of_not_upper {c : Char} (h : c.isUpper = false) : c.toLower = c := by
  unfold Char.toLower
  rw [dif_neg]
  intro hrange
  have hupper : c.isUpper = true := decide_eq_true hrange
  rw [h] at hupper
  cases hupper

theorem lookup_ascii {c : Char} (h : isAscii c = true) : superscriptDigits.lookup c = none := by
  rw [List.lookup_eq_none_iff]
  intro pair hpair
  have hlarge : 128 ≤ pair.1.toNat := by
    revert pair
    decide
  have hlt : c.toNat < 128 := of_decide_eq_true h
  rw [bne_iff_ne]
  intro heq
  rw [heq] at hlt
  omega

theorem replaced_ascii {c : Char} (h : isAscii c = true) : replaced c = c := by
  have hlt : c.toNat < 128 := of_decide_eq_true h
  unfold replaced
  rw [if_neg, if_neg]
  · intro heq
    rw [heq] at hlt
    exact absurd hlt (by decide)
  · intro heq
    rw [heq] at hlt
    exact absurd hlt (by decide)

theorem isSuperscript_ascii {c : Char} (h : isAscii c = true) : isSuperscript c = false := by
  have hlt : c.toNat < 128 := of_decide_eq_true h
  have hne : c ∉ ['¹', '²', '³'] := by
    intro hmem
    have hlarge : ∀ d ∈ ['¹', '²', '³'], 128 ≤ d.toNat := forall_of_check (by decide)
    have := hlarge c hmem
    omega
  unfold isSuperscript
  simp only [hne, decide_false, Bool.false_or, Bool.and_eq_false_iff, decide_eq_false_iff_not]
  left
  omega

theorem last_of_strip {text rest : List Char} {c : Char} (h : strip text = rest ++ [c]) :
    isSpace c = false := by
  have hlast : (strip text).rdropWhile space = strip text := List.rdropWhile_idempotent _ _
  rw [h, List.rdropWhile_concat] at hlast
  by_cases hc : space c = true
  · rw [if_pos hc] at hlast
    have hle := (List.rdropWhile_prefix space rest).sublist.length_le
    rw [hlast, List.length_append, List.length_singleton] at hle
    omega
  · exact Bool.eq_false_of_not_eq_true hc

theorem withoutSuperscript_of_last {text : List Char}
    (h : ∀ rest c, text = rest ++ [c] → isSuperscript c = false ∧ c ≠ ' ') :
    withoutSuperscript text = text := by
  unfold withoutSuperscript
  induction text using List.reverseRecOn with
  | nil => rfl
  | append_singleton rest c _ =>
    have hc := h rest c rfl
    rw [List.rdropWhile_concat_neg]
    simp [hc.1, hc.2]

theorem strip_strip (text : List Char) : strip (strip text) = strip text := trim_trim _

theorem dropWhile_strip (text : List Char) : (strip text).dropWhile space = strip text := by
  have hstrip := strip_strip text
  by_contra hne
  have hlt : ((strip text).dropWhile space).length < (strip text).length := by
    have hsuffix := List.dropWhile_suffix space (l := strip text)
    refine lt_of_le_of_ne hsuffix.sublist.length_le ?_
    intro heq
    exact hne (hsuffix.eq_of_length heq)
  have hle := (List.rdropWhile_prefix space ((strip text).dropWhile space)).sublist.length_le
  have heq : (((strip text).dropWhile space).rdropWhile space).length = (strip text).length :=
    congrArg List.length hstrip
  omega

theorem first_of_strip {text rest : List Char} {c : Char} (h : strip text = c :: rest) :
    isSpace c = false := by
  have hfirst := dropWhile_strip text
  by_contra hc
  have hspace : space c = true := by simpa [space, Glyph.char] using hc
  rw [h, List.dropWhile_cons_of_pos hspace] at hfirst
  have hle := (List.dropWhile_suffix space (l := rest)).sublist.length_le
  rw [hfirst, List.length_cons] at hle
  omega

theorem map_replaced_ascii {text : List Char} (h : ∀ c ∈ text, isAscii c = true) :
    text.map replaced = text := by
  conv_rhs => rw [← List.map_id text]
  exact List.map_congr_left fun c hc => replaced_ascii (h c hc)

theorem normalised_ascii (nfkc : Nfkc) {text : List Char} (h : ∀ c ∈ text, isAscii c = true) :
    normalised nfkc text = strip text := by
  have hfolds : nfkc.normalize text = text := by
    rw [nfkc.folds _ fun c hc => .inl (h c hc)]
    conv_rhs => rw [← List.map_id text]
    exact List.map_congr_left fun c hc => by rw [lookup_ascii (h c hc)]; rfl
  unfold normalised
  rw [hfolds, map_replaced_ascii h]

theorem ascii_strip {s : List Char} (hs : ∀ c ∈ s, isAscii c = true) :
    ∀ c ∈ strip s, isAscii c = true :=
  fun c hc => hs c ((Cut.trim space s).isInfix.subset hc)

theorem withoutSuperscript_ascii {s : List Char} (hs : ∀ c ∈ s, isAscii c = true) :
    withoutSuperscript (strip s) = strip s := by
  apply withoutSuperscript_of_last
  intro rest c hlast
  refine ⟨isSuperscript_ascii (ascii_strip hs c (by rw [hlast]; simp)), ?_⟩
  intro hspace
  have hfalse := last_of_strip hlast
  rw [hspace] at hfalse
  exact absurd hfalse (by decide)

theorem superscript_facts {c d : Char} (h : superscriptDigits.lookup c = some d) :
    isSpace c = false ∧ isSuperscript c = true ∧ isDecimal d = true ∧ isAscii d = true ∧
      (digitValue d = 0 ↔ c = '⁰') := by
  have hall : ∀ pair ∈ superscriptDigits, isSpace pair.1 = false ∧ isSuperscript pair.1 = true ∧
      isDecimal pair.2 = true ∧ isAscii pair.2 = true ∧
      (digitValue pair.2 = 0 ↔ pair.1 = '⁰') := by decide
  obtain ⟨front, back, heq, -⟩ := List.lookup_eq_some_iff.mp h
  exact hall (c, d) (by rw [heq]; simp)

section
variable {marks : List Char} (hmarks : ∀ c ∈ marks, (superscriptDigits.lookup c).isSome)
include hmarks

theorem marks_not_space : ∀ c ∈ marks, isSpace c = false := by
  intro c hc
  obtain ⟨d, hd⟩ := Option.isSome_iff_exists.mp (hmarks c hc)
  exact (superscript_facts hd).1

theorem marks_superscript : ∀ c ∈ marks, isSuperscript c = true := by
  intro c hc
  obtain ⟨d, hd⟩ := Option.isSome_iff_exists.mp (hmarks c hc)
  exact (superscript_facts hd).2.1

end

/-- A bracket, one or two digits, a bracket, with white space behind each of them. -/
structure Mark where
  front : Char
  inner : List Char
  digits : List Char
  back : List Char
  close : Char
  after : List Char
  front_mem : front ∈ "([\x7b".toList
  inner_space : ∀ c ∈ inner, isSpace c = true
  digits_decimal : ∀ c ∈ digits, isDecimal c = true
  few : 1 ≤ digits.length ∧ digits.length ≤ 2
  back_space : ∀ c ∈ back, isSpace c = true
  close_mem : close ∈ ")]\x7d".toList
  after_space : ∀ c ∈ after, isSpace c = true

def Mark.text (m : Mark) : List Char :=
  m.front :: (m.inner ++ m.digits ++ m.back ++ m.close :: m.after)

theorem dropWhile_all {p : Char → Bool} {l : List Char} (h : ∀ c ∈ l, p c = true) (rest : List Char) :
    (l ++ rest).dropWhile p = rest.dropWhile p := by
  rw [List.dropWhile_append_of_pos h]

theorem takeWhile_all {p : Char → Bool} {l : List Char} {c : Char} (h : ∀ c ∈ l, p c = true)
    (hc : p c = false) (rest : List Char) : (l ++ c :: rest).takeWhile p = l := by
  rw [List.takeWhile_append_of_pos h, List.takeWhile_cons_of_neg (by simp [hc]), List.append_nil]

theorem dropWhile_first {p : Char → Bool} {c : Char} (hc : p c = false) (rest : List Char) :
    (c :: rest).dropWhile p = c :: rest :=
  List.dropWhile_cons_of_neg (by simp [hc])

theorem bracket_not {c : Char} (h : c ∈ "()[]\x7b\x7d".toList) :
    isSpace c = false ∧ isDecimal c = false := by
  have hall : ∀ c ∈ "()[]\x7b\x7d".toList, isSpace c = false ∧ isDecimal c = false :=
    forall_of_check (by decide)
  exact hall c h

theorem bracket_of_front {c : Char} (h : c ∈ "([\x7b".toList) : c ∈ "()[]\x7b\x7d".toList := by
  have hall : ∀ c ∈ "([\x7b".toList, c ∈ "()[]\x7b\x7d".toList := forall_of_check (by decide)
  exact hall c h

theorem bracket_of_close {c : Char} (h : c ∈ ")]\x7d".toList) : c ∈ "()[]\x7b\x7d".toList := by
  have hall : ∀ c ∈ ")]\x7d".toList, c ∈ "()[]\x7b\x7d".toList := forall_of_check (by decide)
  exact hall c h

theorem not_isSpace_of_isDecimal {c : Char} (h : isDecimal c = true) : isSpace c = false := by
  have hzeros : ∀ z ∈ decimalZeros, ∀ i < 10, isSpace (Char.ofNat (z + i)) = false := by
    decide
  obtain ⟨z, hz, hrange⟩ := List.any_eq_true.mp h
  have hle : z ≤ c.toNat ∧ c.toNat < z + 10 := by simpa using hrange
  have heq : Char.ofNat (z + (c.toNat - z)) = c := by
    rw [show z + (c.toNat - z) = c.toNat by omega, Char.ofNat_toNat]
  rw [← heq]
  exact hzeros z hz _ (by omega)

theorem footnoteHead_mark (head : List Char) (m : Mark) :
    footnoteHead (head ++ m.text) = some head := by
  obtain ⟨front, inner, digits, back, close, after, hfront, hinner, hdigits, hfew, hback, hclose,
    hafter⟩ := m
  have hfront' := bracket_not (bracket_of_front hfront)
  have hclose' := bracket_not (bracket_of_close hclose)
  have hrev : ∀ {p : Char → Bool} {l : List Char}, (∀ c ∈ l, p c = true) →
      ∀ c ∈ l.reverse, p c = true := fun h c hc => h c (List.mem_reverse.mp hc)
  have hreverse : (head ++ Mark.text ⟨front, inner, digits, back, close, after, hfront, hinner,
      hdigits, hfew, hback, hclose, hafter⟩).reverse = after.reverse ++ close :: (back.reverse ++
        (digits.reverse ++ (inner.reverse ++ front :: head.reverse))) := by
    simp [Mark.text]
  obtain ⟨digit, digits', hdigit⟩ := List.exists_cons_of_length_pos
    (show 0 < digits.reverse.length by rw [List.length_reverse]; omega)
  have hdigit' : isDecimal digit = true :=
    hrev hdigits digit (by rw [hdigit]; exact List.mem_cons_self)
  have hend : ∀ l : List Char, (digits.reverse ++ l).dropWhile isSpace = digits.reverse ++ l := by
    intro l
    rw [hdigit]
    exact dropWhile_first (not_isSpace_of_isDecimal hdigit') _
  have hnext : ∃ c rest, inner.reverse ++ front :: head.reverse = c :: rest ∧ isDecimal c = false := by
    cases hlast : inner.reverse with
    | nil => exact ⟨front, head.reverse, rfl, hfront'.2⟩
    | cons c rest =>
      refine ⟨c, _, rfl, ?_⟩
      by_contra hc
      have hspace := hrev hinner c (by rw [hlast]; exact List.mem_cons_self)
      rw [not_isSpace_of_isDecimal (by simpa using hc)] at hspace
      cases hspace
  obtain ⟨c, rest, hc, hc'⟩ := hnext
  have htake : (digits.reverse ++ (inner.reverse ++ front :: head.reverse)).takeWhile isDecimal =
      digits.reverse := by
    rw [hc]
    exact takeWhile_all (hrev hdigits) hc' rest
  have hdrop : ((digits.reverse ++ (inner.reverse ++ front :: head.reverse)).dropWhile
      isDecimal).dropWhile isSpace = front :: head.reverse := by
    rw [dropWhile_all (hrev hdigits), hc, dropWhile_first hc', ← hc, dropWhile_all (hrev hinner),
      dropWhile_first hfront'.1]
  unfold footnoteHead
  rw [hreverse, dropWhile_all (hrev hafter), dropWhile_first hclose'.1]
  dsimp only
  rw [dropWhile_all (hrev hback), hend, hdrop, htake]
  dsimp only
  rw [if_pos ⟨hclose, by simpa using hfew.1, by simpa using hfew.2, hfront⟩, List.reverse_reverse]

theorem of_footnoteHead {text head : List Char} (h : footnoteHead text = some head) :
    ∃ m : Mark, text = head ++ m.text := by
  unfold footnoteHead at h
  split at h
  · next close rest hclose =>
    dsimp only at h
    split at h
    · next front tail hfront =>
      split at h
      · next hall =>
        cases h
        have hafter := List.takeWhile_append_dropWhile (p := isSpace) (l := text.reverse)
        have hback := List.takeWhile_append_dropWhile (p := isSpace) (l := rest)
        have hdigits := List.takeWhile_append_dropWhile (p := isDecimal) (l := rest.dropWhile isSpace)
        have hinner := List.takeWhile_append_dropWhile (p := isSpace)
          (l := (rest.dropWhile isSpace).dropWhile isDecimal)
        rw [hclose] at hafter
        rw [hfront] at hinner
        refine ⟨⟨front, (((rest.dropWhile isSpace).dropWhile isDecimal).takeWhile isSpace).reverse,
          ((rest.dropWhile isSpace).takeWhile isDecimal).reverse,
          (rest.takeWhile isSpace).reverse, close, (text.reverse.takeWhile isSpace).reverse,
          hall.2.2.2, ?_, ?_, ?_, ?_, hall.1, ?_⟩, ?_⟩
        · exact fun c hc => List.mem_takeWhile_imp (List.mem_reverse.mp hc)
        · exact fun c hc => List.mem_takeWhile_imp (List.mem_reverse.mp hc)
        · rw [List.length_reverse]
          exact ⟨hall.2.1, hall.2.2.1⟩
        · exact fun c hc => List.mem_takeWhile_imp (List.mem_reverse.mp hc)
        · exact fun c hc => List.mem_takeWhile_imp (List.mem_reverse.mp hc)
        · have htext : text.reverse = text.reverse.takeWhile isSpace ++ close ::
              (rest.takeWhile isSpace ++ ((rest.dropWhile isSpace).takeWhile isDecimal ++
                (((rest.dropWhile isSpace).dropWhile isDecimal).takeWhile isSpace ++
                  front :: tail))) := by
            rw [hinner, hdigits, hback, hafter]
          apply List.reverse_injective
          refine htext.trans ?_
          simp [Mark.text]
      · cases h
    · cases h
  · cases h

theorem Mark.removable (m : Mark) : ∀ c ∈ m.text, removable c = true := by
  intro c hc
  have hbrackets : ∀ c ∈ "()[]\x7b\x7d".toList, CellSteps.removable c = true :=
    forall_of_check (by decide)
  simp only [Mark.text, List.mem_cons, List.mem_append] at hc
  obtain hc | ((hc | hc) | hc) | hc | hc := hc
  · exact hc ▸ hbrackets _ (bracket_of_front m.front_mem)
  · exact removable_of_isSpace (m.inner_space c hc)
  · simp [CellSteps.removable, m.digits_decimal c hc]
  · exact removable_of_isSpace (m.back_space c hc)
  · exact hc ▸ hbrackets _ (bracket_of_close m.close_mem)
  · exact removable_of_isSpace (m.after_space c hc)

theorem stripFootnotes_split (text : List Char) :
    ∃ back, text = (stripFootnotes text).1 ++ back ∧ ∀ c ∈ back, removable c = true := by
  induction text using stripFootnotes.induct with
  | case1 text hnone =>
    rw [stripFootnotes, hnone]
    exact ⟨[], by simp⟩
  | case2 text head hsome hdigit ih =>
    obtain ⟨m, hm⟩ := of_footnoteHead hsome
    obtain ⟨back, hsplit, hback⟩ := ih
    have hspace := List.rdropWhile_append_rtakeWhile (p := isSpace) (l := head)
    rw [stripFootnotes, hsome]
    dsimp only
    rw [if_pos hdigit]
    refine ⟨back ++ head.rtakeWhile isSpace ++ m.text, ?_, ?_⟩
    · rw [← List.append_assoc, ← List.append_assoc, ← hsplit, hspace, ← hm]
    · intro c hc
      simp only [List.mem_append] at hc
      obtain (hc | hc) | hc := hc
      · exact hback c hc
      · exact removable_of_isSpace (List.mem_rtakeWhile_imp hc)
      · exact m.removable c hc
  | case3 text head hsome hdigit =>
    rw [stripFootnotes, hsome]
    dsimp only
    rw [if_neg hdigit]
    exact ⟨[], by simp⟩

theorem stripFootnotes_cut (text : List Char) : Cut removable text (stripFootnotes text).1 := by
  obtain ⟨back, hsplit, hback⟩ := stripFootnotes_split text
  exact ⟨[], back, hsplit, by simp, hback⟩

theorem strip_cut (text : List Char) : Cut removable text (strip text) :=
  (Cut.trim space text).mono fun _ h => removable_of_isSpace h

theorem take_cut {text unit : List Char} (h : unit.isSuffixOf (lower text) = true) :
    Cut (fun c => c.toLower ∈ unit) text (text.take (text.length - unit.length)) := by
  refine ⟨[], text.drop (text.length - unit.length), by simp, by simp, ?_⟩
  intro c hc
  have hlower : lower (text.drop (text.length - unit.length)) = unit := by
    have hsuffix := List.suffix_iff_eq_drop.mp (List.isSuffixOf_iff_suffix.mp h)
    have hlength : (lower text).length = text.length := List.length_map _
    rw [hlength] at hsuffix
    exact (List.map_drop).trans hsuffix.symm
  have hmem : c.toLower ∈ unit := by
    rw [← hlower]
    exact List.mem_map_of_mem hc
  exact decide_eq_true hmem

theorem removable_of_unit {unit : List Char} (hunit : ∀ c ∈ unit, c ∈ "bps".toList) (c : Char)
    (hc : decide (c.toLower ∈ unit) = true) : removable c = true := by
  simp only [removable, hunit _ (of_decide_eq_true hc), decide_true, Bool.or_true]

theorem takeSuffix_cut (text : List Char) : Cut removable text (takeSuffix text).2 := by
  unfold takeSuffix
  split
  · next hpercent =>
    obtain ⟨rest, hrest⟩ := List.getLast?_eq_some_iff.mp hpercent
    have hcut : Cut removable text text.dropLast := by
      rw [hrest, List.dropLast_concat]
      exact ⟨[], ['%'], by simp, by simp, forall_of_check (by decide)⟩
    exact hcut.trans (strip_cut _)
  · split
    · next hunit =>
      exact ((take_cut hunit).mono (removable_of_unit (forall_of_check (by decide)))).trans (strip_cut _)
    · split
      · next hunit =>
        exact ((take_cut hunit).mono (removable_of_unit (forall_of_check (by decide)))).trans (strip_cut _)
      · exact Cut.refl _ _

theorem dropPad_cut (text : List Char) : Cut removable text (text.dropWhile isPad) :=
  (Cut.dropWhile isPad text).mono fun c h => by simp [removable, h]

theorem peel_cut (isNegative : Bool) (text : List Char) :
    Cut removable text (peel isNegative text).2 := by
  induction isNegative, text using peel.induct with
  | case1 isNegative c rest hparens ih =>
    obtain ⟨body, hbody⟩ := List.getLast?_eq_some_iff.mp hparens.2
    have hcut : Cut removable (c :: rest) rest.dropLast := by
      rw [hparens.1, hbody, List.dropLast_concat]
      exact ⟨['('], [')'], by simp, forall_of_check (by decide),
        forall_of_check (by decide)⟩
    rw [peel, if_pos hparens]
    exact (hcut.trans (strip_cut _)).trans ih
  | case2 isNegative c rest hplain =>
    rw [peel, if_neg hplain]
    exact Cut.refl _ _
  | case3 isNegative =>
    rw [peel]
    exact Cut.refl _ _

theorem takeSign_cut (isNegative : Bool) (text : List Char) :
    Cut removable text (takeSign isNegative text).2 := by
  unfold takeSign
  split
  · next rest =>
    have hcut : Cut removable ('-' :: rest) rest :=
      ⟨['-'], [], by simp, forall_of_check (by decide), by simp⟩
    exact hcut.trans (strip_cut _)
  · next rest =>
    have hcut : Cut removable ('+' :: rest) rest :=
      ⟨['+'], [], by simp, forall_of_check (by decide), by simp⟩
    exact hcut.trans (strip_cut _)
  · exact Cut.refl _ _

def innerOf (text : List Char) : List Char :=
  let peeled := peel false (text.dropWhile isPad)
  (takeSign peeled.1 peeled.2).2

theorem innerOf_cut (text : List Char) : Cut removable text (innerOf text) :=
  ((dropPad_cut text).trans (peel_cut false _)).trans (takeSign_cut _ _)

def layers (text : List Char) : ℕ × List Char :=
  match text with
  | c :: rest =>
    if c = '(' ∧ rest.getLast? = some ')' then
      ((layers (strip rest.dropLast)).1 + 1, (layers (strip rest.dropLast)).2)
    else (0, text)
  | [] => (0, text)
termination_by text.length
decreasing_by
  all_goals
    have hstrip : (strip rest.dropLast).length ≤ rest.dropLast.length :=
      (Cut.trim space rest.dropLast).isInfix.length_le
    rw [List.length_dropLast] at hstrip
    rw [List.length_cons]
    omega

theorem peel_eq (isNegative : Bool) (text : List Char) :
    peel isNegative text =
      (isNegative ^^ decide ((layers text).1 % 2 = 1), (layers text).2) := by
  induction isNegative, text using peel.induct with
  | case1 isNegative c rest hparens ih =>
    rw [peel, layers, if_pos hparens, if_pos hparens, ih]
    dsimp only
    rcases Nat.mod_two_eq_zero_or_one (layers (strip rest.dropLast)).1 with hmod | hmod
    · simp [hmod, Nat.add_mod]
    · simp [hmod, Nat.add_mod]
  | case2 isNegative c rest hplain =>
    rw [peel, layers, if_neg hplain, if_neg hplain]
    simp
  | case3 isNegative =>
    rw [peel, layers]
    simp

/-- Parentheses around the number, and a minus inside them. -/
def negations (text : List Char) : ℕ :=
  (layers (text.dropWhile isPad)).1 +
    if (layers (text.dropWhile isPad)).2.head? = some '-' then 1 else 0

theorem readNumber_eq (text : List Char) :
    readNumber text = (decide (negations text % 2 = 1), cleaned (innerOf text)) := by
  unfold readNumber innerOf negations
  simp only [peel_eq, Bool.false_xor, Prod.mk.injEq, and_true]
  generalize layers (text.dropWhile isPad) = l
  cases hinner : l.2 with
  | nil => simp [takeSign]
  | cons c rest =>
    by_cases hminus : c = '-'
    · subst hminus
      simp only [takeSign, List.head?_cons, ↓reduceIte]
      rcases Nat.mod_two_eq_zero_or_one l.1 with hmod | hmod
      · simp [hmod, Nat.add_mod]
      · simp [hmod, Nat.add_mod]
    · by_cases hplus : c = '+'
      · subst hplus
        simp [takeSign]
      · simp [takeSign, hminus, hplus]

def kept (c : Char) : Bool := c != ',' && c != ' '

/-- What is dropped behind a numeral is one `x` at the end. -/
theorem of_dropMultiple {text : List Char} (h : isNumeral (dropMultiple text) = true) :
    text = dropMultiple text ∨ ∃ x, text = dropMultiple text ++ [x] ∧ x.toLower = 'x' := by
  have hreverse : ∀ {c : Char} {rest : List Char}, text.reverse = c :: rest →
      text = rest.reverse ++ [c] := by
    intro c rest heq
    rw [← List.reverse_reverse text, heq, List.reverse_cons]
  unfold dropMultiple at h ⊢
  split
  · next rest heq => exact .inr ⟨'x', hreverse heq, by decide⟩
  · next rest heq => exact .inr ⟨'X', hreverse heq, by decide⟩
  · next rest heq =>
    -- a line feed is no part of a numeral
    rw [heq] at h
    have hfeed := numeral_chars h '\n' (by simp)
    exact absurd hfeed (by decide)
  · next rest heq =>
    rw [heq] at h
    have hfeed := numeral_chars h '\n' (by simp)
    exact absurd hfeed (by decide)
  · exact .inl rfl

theorem cleaned_split {inner : List Char} (h : isNumeral (cleaned inner) = true) :
    ∃ part tail, Cut isPad inner (part ++ tail) ∧ part.filter kept = cleaned inner ∧
      (tail.filter kept = [] ∨ ∃ x, tail.filter kept = [x] ∧ x.toLower = 'x') := by
  have hcut := Cut.trim isPad inner
  change isNumeral (dropMultiple ((trim isPad inner).filter kept)) = true at h
  change ∃ part tail, Cut isPad inner (part ++ tail) ∧
    part.filter kept = dropMultiple ((trim isPad inner).filter kept) ∧ _
  cases of_dropMultiple h with
  | inl hsame => exact ⟨trim isPad inner, [], by simpa using hcut, hsame, .inl rfl⟩
  | inr hmultiple =>
    obtain ⟨x, hx, hlower⟩ := hmultiple
    obtain ⟨part, tail, hsplit, hpart, htail⟩ := List.filter_eq_append_iff.mp hx
    exact ⟨part, tail, hsplit ▸ hcut, hpart, .inr ⟨x, htail, hlower⟩⟩

/-- Nothing else is left of the text than a numeral and the `x` behind it. -/
theorem mem_of_cleaned {inner : List Char} (h : isNumeral (cleaned inner) = true) {c : Char}
    (hc : c ∈ inner) (hpad : isPad c = false) (hkept : kept c = true) :
    isDecimal c = true ∨ c = '.' ∨ c.toLower = 'x' := by
  obtain ⟨part, tail, hcut, hpart, htail⟩ := cleaned_split h
  cases List.mem_append.mp (hcut.mem hc hpad) with
  | inl hinside =>
    have hmem : c ∈ cleaned inner := by
      rw [← hpart]
      exact List.mem_filter.mpr ⟨hinside, hkept⟩
    exact (numeral_chars h c hmem).imp_right .inl
  | inr hbehind =>
    have hmem : c ∈ tail.filter kept := List.mem_filter.mpr ⟨hbehind, hkept⟩
    cases htail with
    | inl hnone =>
      rw [hnone] at hmem
      cases hmem
    | inr hone =>
      obtain ⟨x, hx, hlower⟩ := hone
      rw [hx, List.mem_singleton] at hmem
      exact .inr (.inr (hmem ▸ hlower))

/-- The text in front of the footnotes, and that in front of the suffix. -/
def bodyOf (text : List Char) : List Char := strip (stripFootnotes text).1

def coreOf (text : List Char) : List Char := (takeSuffix (bodyOf text)).2

theorem coreOf_cut (text : List Char) : Cut removable text (coreOf text) :=
  ((stripFootnotes_cut text).trans (strip_cut _)).trans (takeSuffix_cut _)

def numeralOf (text : List Char) : List Char := cleaned (innerOf (coreOf text))

/-- The cell is read where the text is no null token, before and behind the footnotes, and its core
    cleans up to a numeral. -/
def Readable (text : List Char) : Prop :=
  isNull text = false ∧ bodyOf text ≠ [] ∧ isNull (bodyOf text) = false ∧
    isNumeral (numeralOf text) = true

instance (text : List Char) : Decidable (Readable text) :=
  inferInstanceAs (Decidable (_ ∧ _))

def Negated (text : List Char) : Prop := negations (coreOf text) % 2 = 1

instance (text : List Char) : Decidable (Negated text) := inferInstanceAs (Decidable (_ = _))

def cellOf (hadSuperscript : Bool) (text : List Char) : Cell :=
  ⟨numeralOf text, (takeSuffix (bodyOf text)).1, decide (Negated text),
    hadSuperscript || (stripFootnotes text).2⟩

theorem readCell_eq (hadSuperscript : Bool) (text : List Char) :
    readCell hadSuperscript text =
      if Readable text then some (cellOf hadSuperscript text) else none := by
  have hsteps : readCell hadSuperscript text =
      if isNull text then none
      else if (bodyOf text).isEmpty || isNull (bodyOf text) then none
      else
        let number := readNumber (coreOf text)
        if number.2.isEmpty || !number.2.any isDigit then none
        else if !isNumeral number.2 then none
        else some ⟨number.2, (takeSuffix (bodyOf text)).1, number.1,
          hadSuperscript || (stripFootnotes text).2⟩ := rfl
  rw [hsteps, readNumber_eq]
  change (if _ then none else if _ then none else
    if (numeralOf text).isEmpty || !(numeralOf text).any isDigit then none
    else if !isNumeral (numeralOf text) then none
    else some (cellOf hadSuperscript text)) = _
  by_cases hreadable : Readable text
  · have hnull : isNull text = false := hreadable.1
    have hempty : bodyOf text ≠ [] := hreadable.2.1
    have hnull' : isNull (bodyOf text) = false := hreadable.2.2.1
    have hnumeral := hreadable.2.2.2
    obtain ⟨c, hc, hdigit⟩ := digit_of_numeral hnumeral
    have hany : (numeralOf text).any isDigit = true :=
      List.any_eq_true.mpr ⟨c, hc, by simp [isDigit, hdigit]⟩
    have hne : numeralOf text ≠ [] := List.ne_nil_of_mem hc
    rw [if_pos hreadable]
    simp [hnull, hempty, hnull', hnumeral, hany, hne]
  · rw [if_neg hreadable]
    by_cases hnull : isNull text = true
    · simp [hnull]
    · by_cases hempty : bodyOf text = []
      · simp [hempty]
      · by_cases hnull' : isNull (bodyOf text) = true
        · simp [hnull']
        · have hnumeral : isNumeral (numeralOf text) = false := by
            by_contra hnumeral
            exact hreadable ⟨by simpa using hnull, hempty, by simpa using hnull',
              by simpa using hnumeral⟩
          simp [hnumeral]

def valueOf (cell : Cell) : Except Signal Decimal :=
  if cell.isNegative then defaultContext.minus (decimalOf cell.numeral)
  else .ok (decimalOf cell.numeral)

theorem numberOf_eq_ok_iff {cell : Cell} {number : ParsedNumber} :
    numberOf cell = .ok number ↔ ∃ value, valueOf cell = .ok value ∧
      number = ⟨value, cell.isPercent, cell.isNegative, cell.hadFootnote⟩ := by
  have hbind : numberOf cell = (valueOf cell).bind fun value =>
      .ok ⟨value, cell.isPercent, cell.isNegative, cell.hadFootnote⟩ := by
    unfold numberOf valueOf
    cases cell.isNegative
    · rfl
    · rfl
  rw [hbind]
  cases valueOf cell with
  | error e => simp [Except.bind]
  | ok value =>
    simp only [Except.bind, Except.ok.injEq, exists_eq_left']
    exact eq_comm

/-- A cell is unreadable, or its numeral and its negations make the number. -/
theorem parseNumeric_eq (nfkc : Nfkc) (s : List Char) :
    parseNumeric nfkc (some s) =
      let text := normalised nfkc (withoutSuperscript (strip s))
      if Readable text then
        (numberOf (cellOf (withoutSuperscript (strip s) != strip s) text)).map some
      else .ok none := by
  unfold parseNumeric
  simp only [readCell_eq]
  by_cases hreadable : Readable (normalised nfkc (withoutSuperscript (strip s)))
  · simp only [if_pos hreadable]
  · simp only [if_neg hreadable]

theorem parseNumeric_ascii (nfkc : Nfkc) {s : List Char} (hs : ∀ c ∈ s, isAscii c = true) :
    parseNumeric nfkc (some s) =
      if Readable (strip s) then (numberOf (cellOf false (strip s))).map some else .ok none := by
  rw [parseNumeric_eq, withoutSuperscript_ascii hs, normalised_ascii nfkc (ascii_strip hs),
    strip_strip, bne_self_eq_false]

theorem of_parseNumeric_ascii {nfkc : Nfkc} {s : List Char} (hs : ∀ c ∈ s, isAscii c = true)
    {number : ParsedNumber} (h : parseNumeric nfkc (some s) = .ok (some number)) :
    Readable (strip s) ∧ valueOf (cellOf false (strip s)) = .ok number.value := by
  rw [parseNumeric_ascii nfkc hs] at h
  by_cases hreadable : Readable (strip s)
  · rw [if_pos hreadable] at h
    cases hnumber : numberOf (cellOf false (strip s)) with
    | error e =>
      rw [hnumber] at h
      cases h
    | ok number' =>
      rw [hnumber] at h
      cases h
      obtain ⟨value, hvalue, heq⟩ := numberOf_eq_ok_iff.mp hnumber
      exact ⟨hreadable, heq ▸ hvalue⟩
  · rw [if_neg hreadable] at h
    cases h

def NoneOr (P : Decimal → Prop) : Except Signal (Option ParsedNumber) → Prop
  | .ok none => True
  | .ok (some number) => P number.value
  | .error _ => False

theorem noneOr_iff {P : Decimal → Prop} {hadSuperscript : Bool} {text : List Char} :
    NoneOr P (if Readable text then (numberOf (cellOf hadSuperscript text)).map some else .ok none) ↔
      (Readable text → ∃ value, valueOf (cellOf false text) = .ok value ∧ P value) := by
  by_cases hreadable : Readable text
  · have hvalue : valueOf (cellOf hadSuperscript text) = valueOf (cellOf false text) := rfl
    rw [if_pos hreadable, ← hvalue]
    cases hnumber : numberOf (cellOf hadSuperscript text) with
    | error e =>
      have hnone : ∀ value, valueOf (cellOf hadSuperscript text) ≠ .ok value := by
        intro value heq
        have hok := numberOf_eq_ok_iff.mpr ⟨value, heq, rfl⟩
        rw [hnumber] at hok
        cases hok
      simp [NoneOr, Except.map, hreadable, hnone]
    | ok number =>
      obtain ⟨value, heq, hnumber'⟩ := numberOf_eq_ok_iff.mp hnumber
      subst hnumber'
      simp [NoneOr, Except.map, hreadable, heq]
  · rw [if_neg hreadable]
    simp [NoneOr, hreadable]

end Ragent.CellSteps
