import Ragent.CellSteps

set_option autoImplicit false

/-!
# Prose in cells

No letter survives the steps to the numeral but those of a suffix, and the numeral is a part of the
cell.
-/
namespace Ragent.ProseCells
open PyText FlowText Decimals NumericCells Numerals EdgeCuts CellSteps

theorem letter_facts {c : Char} (hc : isAscii c = true) : c.isAlpha = true →
    isDecimal c = false ∧ c ≠ '.' ∧ kept c = true ∧
      (removable c = true → c.toLower ∈ "bps".toList) := by
  revert hc
  apply ascii_cases
  decide

def isX (c : Char) : Bool := c.toLower == 'x'

theorem isX_cases {c : Char} (h : isX c = true) : c = 'x' ∨ c = 'X' := by
  have hlower : c.toLower = 'x' := by simpa [isX] using h
  by_cases hupper : c.isUpper = true
  · right
    have hrange := isUpper_iff.mp hupper
    have hcode : ∀ n < 128, (Char.ofNat n).toLower = 'x' → 65 ≤ n → n ≤ 90 → n = 88 := by decide
    have hx := hcode c.toNat (by omega) (by rw [Char.ofNat_toNat]; exact hlower) hrange.1 hrange.2
    rw [← Char.ofNat_toNat c, hx]
  · left
    rw [← hlower]
    exact (toLower_of_not_upper (by simpa using hupper)).symm

theorem not_removable_of_isX {c : Char} (h : isX c = true) : removable c = false := by
  cases isX_cases h with
  | inl hx => exact hx ▸ by decide
  | inr hx => exact hx ▸ by decide

theorem kept_of_isX {c : Char} (h : isX c = true) :
    kept c = true ∧ isDecimal c = false ∧ c ≠ '.' := by
  cases isX_cases h with
  | inl hx => exact hx ▸ by decide
  | inr hx => exact hx ▸ by decide

theorem numeral_split {text : List Char} (h : isNumeral (numeralOf text) = true) :
    ∃ part tail, Cut removable text (part ++ tail) ∧ part.filter kept = numeralOf text ∧
      (tail.filter kept = [] ∨ ∃ x, tail.filter kept = [x] ∧ isX x = true) := by
  obtain ⟨part, tail, hcut, hpart, htail⟩ := cleaned_split h
  have hpad : Cut removable (innerOf (coreOf text)) (part ++ tail) :=
    hcut.mono fun c hc => by simp [removable, hc]
  refine ⟨part, tail, ((coreOf_cut text).trans (innerOf_cut _)).trans hpad, hpart, ?_⟩
  cases htail with
  | inl hnone => exact .inl hnone
  | inr hone =>
    obtain ⟨x, hx, hlower⟩ := hone
    exact .inr ⟨x, hx, by simp [isX, hlower]⟩

theorem letters_of_numeral {text : List Char} (hascii : ∀ c ∈ text, isAscii c = true)
    (h : isNumeral (numeralOf text) = true) {c : Char} (hc : c ∈ text) (halpha : c.isAlpha = true) :
    c.toLower ∈ "bpsx".toList := by
  obtain ⟨part, tail, hcut, hpart, htail⟩ := numeral_split h
  have hfacts := letter_facts (hascii c hc) halpha
  by_cases hremovable : removable c = true
  · have hunit := hfacts.2.2.2 hremovable
    exact List.mem_append_left ['x'] hunit
  · have hmem := hcut.mem hc (by simpa using hremovable)
    cases List.mem_append.mp hmem with
    | inl hinside =>
      -- a numeral has no letters
      have hnumeral : c ∈ numeralOf text := by
        rw [← hpart]
        exact List.mem_filter.mpr ⟨hinside, hfacts.2.2.1⟩
      cases numeral_chars h c hnumeral with
      | inl hdigit => exact absurd hdigit (by simp [hfacts.1])
      | inr hpoint => exact absurd hpoint hfacts.2.1
    | inr hbehind =>
      have hkept : c ∈ tail.filter kept := List.mem_filter.mpr ⟨hbehind, hfacts.2.2.1⟩
      cases htail with
      | inl hnone =>
        rw [hnone] at hkept
        cases hkept
      | inr hone =>
        obtain ⟨x, hx, hlower⟩ := hone
        rw [hx, List.mem_singleton] at hkept
        rw [hkept, show x.toLower = 'x' by simpa [isX] using hlower]
        decide

theorem count_of_numeral {text : List Char} (h : isNumeral (numeralOf text) = true) :
    text.countP isX ≤ 1 := by
  obtain ⟨part, tail, hcut, hpart, htail⟩ := numeral_split h
  have hfilter : ∀ l : List Char, l.countP isX = (l.filter kept).countP isX := by
    intro l
    rw [List.countP_filter]
    exact List.countP_congr fun c _ => by
      by_cases hx : isX c = true
      · simp [hx, (kept_of_isX hx).1]
      · simp [hx]
  have hinside : (numeralOf text).countP isX = 0 := by
    apply List.countP_eq_zero.mpr
    intro c hc hx
    have hfacts := kept_of_isX hx
    cases numeral_chars h c hc with
    | inl hdigit => exact absurd hdigit (by simp [hfacts.2.1])
    | inr hpoint => exact hfacts.2.2 hpoint
  have hbehind : (tail.filter kept).countP isX ≤ 1 := by
    refine List.countP_le_length.trans ?_
    cases htail with
    | inl hnone => rw [hnone]; exact Nat.zero_le 1
    | inr hone =>
      obtain ⟨x, hx, -⟩ := hone
      rw [hx]
      exact le_refl 1
  rw [hcut.countP_eq fun _ => not_removable_of_isX, List.countP_append, hfilter part, hpart, hinside,
    hfilter tail]
  omega

/-- A contiguous part of the cell reads so, its commas and spaces removed. -/
def Reads (s : List Char) (q : ℚ) : Prop :=
  ∃ part, part <:+: s ∧ isNumeral (part.filter kept) = true ∧ reading (part.filter kept) = q

theorem reads_iff (s : List Char) (q : ℚ) :
    Reads s q ↔ ∃ back ∈ s.tails, ∃ part ∈ back.inits,
      isNumeral (part.filter kept) = true ∧ reading (part.filter kept) = q := by
  constructor
  · intro h
    obtain ⟨part, hpart, hreads⟩ := h
    obtain ⟨back, hfront, hsuffix⟩ := List.infix_iff_prefix_suffix.mp hpart
    exact ⟨back, (List.mem_tails _ _).mpr hsuffix, part, (List.mem_inits _ _).mpr hfront, hreads⟩
  · intro h
    obtain ⟨back, hback, part, hpart, hreads⟩ := h
    refine ⟨part, ?_, hreads⟩
    exact List.infix_iff_prefix_suffix.mpr
      ⟨back, (List.mem_inits _ _).mp hpart, (List.mem_tails _ _).mp hback⟩

instance (s : List Char) (q : ℚ) : Decidable (Reads s q) := decidable_of_iff' _ (reads_iff s q)

theorem strip_inside (s : List Char) : strip s <:+: s := (Cut.trim space s).isInfix

theorem numeral_infix {s : List Char} (h : isNumeral (numeralOf (strip s)) = true) :
    ∃ part, part <:+: s ∧ part.filter kept = numeralOf (strip s) := by
  obtain ⟨part, tail, hcut, hpart, -⟩ := numeral_split h
  have hfront : part <:+: part ++ tail := List.infix_append' [] part tail
  exact ⟨part, (hfront.trans hcut.isInfix).trans (strip_inside s), hpart⟩

/-- The magnitude is that of the numeral, or of the number nearest to it. -/
theorem magnitude_of_value {text : List Char} {value : Decimal}
    (hnumeral : isNumeral (numeralOf text) = true)
    (h : valueOf (cellOf false text) = .ok value) :
    (value.magnitude = reading (numeralOf text) ↔
        ¬ Negated text ∨ Representable defaultContext (decimalOf (numeralOf text))) ∧
      (Negated text → value.magnitude = defaultContext.nearest (decimalOf (numeralOf text))) := by
  rw [← decimalOf_magnitude hnumeral]
  unfold valueOf at h
  by_cases hnegated : Negated text
  · rw [if_pos (show (cellOf false text).isNegative = true from decide_eq_true hnegated)] at h
    have hminus := of_minus rfl h
    refine ⟨?_, fun _ => hminus.2.1⟩
    rw [or_iff_right (not_not.mpr hnegated)]
    exact hminus.2.2
  · rw [if_neg (by simpa [cellOf] using hnegated)] at h
    cases h
    exact ⟨⟨fun _ => .inl hnegated, fun _ => rfl⟩, fun hneg => absurd hneg hnegated⟩

/-- A cell with other letters, or with two multiples, is no number. The magnitude of a number is read
    from a part of the cell exactly where it is not negated, or not rounded, or where another part
    happens to read like the rounded number. -/
theorem prose_is_rejected_and_numerals_are_read (nfkc : Nfkc) {s : List Char}
    (hs : ∀ c ∈ s, isAscii c = true) :
    ((∃ c ∈ s, c.isAlpha = true ∧ c.toLower ∉ "bpsx".toList) ∨ 1 < s.countP isX →
      parseNumeric nfkc (some s) = .ok none) ∧
    ∀ number, parseNumeric nfkc (some s) = .ok (some number) →
      (Reads s number.value.magnitude ↔ ¬ Negated (strip s) ∨
        Representable defaultContext (decimalOf (numeralOf (strip s))) ∨
        Reads s (defaultContext.nearest (decimalOf (numeralOf (strip s))))) ∧
      (∃ part, part <:+: s ∧ part.filter kept = numeralOf (strip s)) ∧
      (number.value.magnitude = reading (numeralOf (strip s)) ↔ ¬ Negated (strip s) ∨
        Representable defaultContext (decimalOf (numeralOf (strip s)))) := by
  have hstrip : Cut removable s (strip s) := strip_cut s
  constructor
  · intro hprose
    rw [parseNumeric_ascii nfkc hs, if_neg]
    intro hreadable
    have hnumeral := hreadable.2.2.2
    have hascii : ∀ c ∈ strip s, isAscii c = true := fun c hc => hs c (hstrip.isInfix.subset hc)
    cases hprose with
    | inl hletter =>
      obtain ⟨c, hc, halpha, hother⟩ := hletter
      have hremovable : removable c = false := by
        by_contra hremovable
        have hunit := (letter_facts (hs c hc) halpha).2.2.2 (by simpa using hremovable)
        exact hother (List.mem_append_left ['x'] hunit)
      exact hother (letters_of_numeral hascii hnumeral (hstrip.mem hc hremovable) halpha)
    | inr htwice =>
      have hcount := count_of_numeral hnumeral
      rw [show s.countP isX = (strip s).countP isX from
        hstrip.countP_eq fun _ => not_removable_of_isX] at htwice
      omega
  · intro number hnumber
    obtain ⟨hreadable, hvalue⟩ := of_parseNumeric_ascii hs hnumber
    have hnumeral := hreadable.2.2.2
    obtain ⟨part, hpart, hkept⟩ := numeral_infix hnumeral
    have hmagnitude := magnitude_of_value hnumeral hvalue
    refine ⟨?_, ⟨part, hpart, hkept⟩, hmagnitude.1⟩
    constructor
    · intro hreads
      by_cases hnegated : Negated (strip s)
      · rw [hmagnitude.2 hnegated] at hreads
        exact .inr (.inr hreads)
      · exact .inl hnegated
    · intro hcases
      by_cases hexact : ¬ Negated (strip s) ∨
          Representable defaultContext (decimalOf (numeralOf (strip s)))
      · rw [hmagnitude.1.mpr hexact]
        exact ⟨part, hpart, hkept ▸ hnumeral, congrArg reading hkept⟩
      · have hother : Reads s (defaultContext.nearest (decimalOf (numeralOf (strip s)))) := by
          tauto
        have hnegated : Negated (strip s) := by tauto
        rw [hmagnitude.2 hnegated]
        exact hother

theorem ratio_is_read :
    parseNumeric Nfkc.folding (some "Q4 2025".toList) = .ok none ∧
      Reads "(1,234.5x)".toList (2469 / 2) := by
  have hprose := (prose_is_rejected_and_numerals_are_read Nfkc.folding (s := "Q4 2025".toList)
    (forall_of_check (by decide))).1
  have hratio := ((prose_is_rejected_and_numerals_are_read Nfkc.folding (s := "(1,234.5x)".toList)
    (forall_of_check (by decide +kernel))).2 ⟨⟨true, 12345, -1⟩, false, true, false⟩ (by decide +kernel)).1
  refine ⟨hprose (.inl ⟨'Q', by decide, by decide, by decide⟩), ?_⟩
  have hmagnitude : (⟨true, 12345, -1⟩ : Decimal).magnitude = 2469 / 2 := by
    norm_num [Decimal.magnitude]
  rw [← hmagnitude]
  exact hratio.mpr (.inr (.inl (by decide +kernel)))

/-- Of a negative number of 29 digits the last one is rounded away. -/
theorem long_negative_is_rounded :
    ∃ number, parseNumeric Nfkc.folding (some "(12345678901234567890123456789)".toList) =
      .ok (some number) ∧
    ¬ Reads "(12345678901234567890123456789)".toList number.value.magnitude := by
  refine ⟨⟨⟨true, 1234567890123456789012345679, 1⟩, false, true, false⟩, by decide +kernel, ?_⟩
  decide +kernel

end Ragent.ProseCells
