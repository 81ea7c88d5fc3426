import Ragent.CellSteps

set_option autoImplicit false

/-!
# Cells in parentheses

Every pair of parentheses around the number is a negation, and so is a minus inside them.
-/
namespace Ragent.ParenthesisedCells
open SpacedWords PyText FlowText Decimals NumericCells Numerals EdgeCuts CellSteps

/-- Behind white space and currency symbols the cell begins with a parenthesis, and it ends with
    one. -/
def Parenthesised (s : List Char) : Prop :=
  ((strip s).dropWhile isPad).head? = some '(' ∧ ((strip s).dropWhile isPad).getLast? = some ')'

instance (s : List Char) : Decidable (Parenthesised s) := inferInstanceAs (Decidable (_ ∧ _))

theorem trim_front {p : Char → Bool} {x y : List Char} (h : y <+: x) (hx : x.dropWhile p = x) :
    trim p y <+: x := by
  have hy : y.dropWhile p = y := by
    cases y with
    | nil => rfl
    | cons c y =>
      obtain ⟨z, hz⟩ := h
      rw [← hz, List.cons_append] at hx
      by_cases hc : p c = true
      · have hle := (List.dropWhile_suffix p (l := y ++ z)).sublist.length_le
        rw [List.dropWhile_cons_of_pos hc] at hx
        rw [hx, List.length_cons] at hle
        omega
      · exact List.dropWhile_cons_of_neg hc
  unfold trim
  rw [hy]
  exact (List.rdropWhile_prefix p y).trans h

theorem coreOf_front (s : List Char) : coreOf (strip s) <+: strip s := by
  have hfirst := dropWhile_strip s
  have hfootnotes : (stripFootnotes (strip s)).1 <+: strip s := by
    obtain ⟨back, hback, -⟩ := stripFootnotes_split (strip s)
    exact ⟨back, hback.symm⟩
  have hbody : bodyOf (strip s) <+: strip s := trim_front hfootnotes hfirst
  unfold coreOf takeSuffix
  split
  · exact trim_front ((List.dropLast_prefix _).trans hbody) hfirst
  · split
    · exact trim_front ((List.take_prefix _ _).trans hbody) hfirst
    · split
      · exact trim_front ((List.take_prefix _ _).trans hbody) hfirst
      · exact hbody

theorem no_parenthesis {inner : List Char} (h : isNumeral (cleaned inner) = true) :
    '(' ∉ inner := by
  intro hmem
  exact absurd (mem_of_cleaned h hmem (by decide) (by decide)) (by decide)

theorem dropWhile_front {p : Char → Bool} {x y : List Char} {c : Char} (h : y <+: x)
    (hx : (x.dropWhile p).head? = some c) :
    y.dropWhile p = [] ∨ (y.dropWhile p).head? = some c := by
  obtain ⟨z, hz⟩ := h
  by_cases hall : ∀ d ∈ y, p d = true
  · exact .inl (List.dropWhile_eq_nil_iff.mpr hall)
  · right
    have hne : y.dropWhile p ≠ [] := fun hnil => hall (List.dropWhile_eq_nil_iff.mp hnil)
    rw [← hz, List.dropWhile_append, if_neg (by simpa using hall)] at hx
    rwa [List.head?_append_of_ne_nil _ hne] at hx

theorem layers_pos {s : List Char} (h : Parenthesised s) (hreadable : Readable (strip s)) :
    1 ≤ (layers ((coreOf (strip s)).dropWhile isPad)).1 := by
  have hnumeral := hreadable.2.2.2
  by_contra hnone
  have hpeel : (peel false ((coreOf (strip s)).dropWhile isPad)).2 =
      (coreOf (strip s)).dropWhile isPad := by
    rw [peel_eq]
    generalize (coreOf (strip s)).dropWhile isPad = text at hnone ⊢
    rw [layers.eq_def] at hnone ⊢
    split
    · next c rest =>
      dsimp only at hnone ⊢
      split at hnone
      · exact absurd (Nat.le_add_left _ _) hnone
      · next hplain => rw [if_neg hplain]
    · rfl
  cases dropWhile_front (coreOf_front s) h.1 with
  | inl hnil =>
    have hempty : numeralOf (strip s) = [] := by
      unfold numeralOf innerOf
      rw [hnil]
      decide +kernel
    rw [hempty] at hnumeral
    exact absurd hnumeral (by decide)
  | inr hhead =>
    obtain ⟨rest, hrest⟩ := List.head?_eq_some_iff.mp hhead
    have hinner : innerOf (coreOf (strip s)) = '(' :: rest := by
      unfold innerOf
      dsimp only
      rw [hpeel, hrest]
      rfl
    exact no_parenthesis hnumeral (by rw [hinner]; exact List.mem_cons_self)

theorem value_nonpos_iff {text : List Char} (hnumeral : isNumeral (numeralOf text) = true) :
    (∃ value, valueOf (cellOf false text) = .ok value ∧ value.value ≤ 0) ↔
      reading (numeralOf text) = 0 ∨ Negated text ∧
        defaultContext.nearest (decimalOf (numeralOf text)) < 10 ^ (1000000 : ℤ) := by
  have hmagnitude := decimalOf_magnitude hnumeral
  have hnonneg := magnitude_nonneg (decimalOf (numeralOf text))
  by_cases hnegated : Negated text
  · have hvalue : valueOf (cellOf false text) = defaultContext.minus (decimalOf (numeralOf text)) :=
      if_pos (decide_eq_true hnegated)
    have hok : (∃ value, defaultContext.minus (decimalOf (numeralOf text)) = .ok value) ↔
        defaultContext.nearest (decimalOf (numeralOf text)) < 10 ^ (1000000 : ℤ) := minus_ok_iff
    rw [hvalue, ← hok]
    constructor
    · intro h
      obtain ⟨value, hminus, -⟩ := h
      exact .inr ⟨hnegated, value, hminus⟩
    · intro h
      have hminus : ∃ value, defaultContext.minus (decimalOf (numeralOf text)) = .ok value := by
        cases h with
        | inl hzero =>
          rw [← hmagnitude, magnitude_eq_zero_iff] at hzero
          exact ⟨_, if_pos hzero⟩
        | inr hsmall => exact hsmall.2
      obtain ⟨value, hminus⟩ := hminus
      refine ⟨value, hminus, ?_⟩
      rw [(of_minus rfl hminus).1]
      exact neg_nonpos.mpr (magnitude_nonneg value)
  · have hvalue : valueOf (cellOf false text) = .ok (decimalOf (numeralOf text)) :=
      if_neg (by simpa [cellOf] using hnegated)
    have hreads := decimalOf_value hnumeral
    rw [hmagnitude] at hnonneg
    simp only [hvalue, Except.ok.injEq, exists_eq_left', hreads, hnegated, false_and, or_false]
    exact ⟨fun hle => le_antisymm hle hnonneg, fun hzero => hzero.le⟩

/-- A cell in parentheses that is read has at least one negation. It is at most zero exactly where
    the numeral is zero, or the negations are odd and the number is not beyond the context. -/
theorem parenthesised_is_at_most_zero_iff (nfkc : Nfkc) {s : List Char}
    (hs : ∀ c ∈ s, isAscii c = true) (hparens : Parenthesised s) :
    (Readable (strip s) → 1 ≤ negations (coreOf (strip s))) ∧
      (NoneOr (·.value ≤ 0) (parseNumeric nfkc (some s)) ↔
        (Readable (strip s) → reading (numeralOf (strip s)) = 0 ∨ Negated (strip s) ∧
          defaultContext.nearest (decimalOf (numeralOf (strip s))) < 10 ^ (1000000 : ℤ))) := by
  constructor
  · intro hreadable
    have hlayers := layers_pos hparens hreadable
    unfold negations
    omega
  · rw [parseNumeric_ascii nfkc hs, noneOr_iff]
    exact forall_congr' fun hreadable => value_nonpos_iff hreadable.2.2.2

theorem dollars_in_parentheses_are_negative :
    NoneOr (·.value ≤ 0) (parseNumeric Nfkc.folding (some "$ (1,234 )".toList)) := by
  have hiff := (parenthesised_is_at_most_zero_iff Nfkc.folding (s := "$ (1,234 )".toList)
    (forall_of_check (by decide)) (by decide)).2
  refine hiff.mpr fun _ => .inr ⟨by decide +kernel, ?_⟩
  have hnearest : defaultContext.nearest (decimalOf (numeralOf (strip "$ (1,234 )".toList))) =
      1234 := by decide +kernel
  have hlt : (1234 : ℚ) < 10 ^ (4 : ℤ) := by decide
  rw [hnearest]
  exact hlt.trans_le (zpow_le_zpow_right₀ (by norm_num) (by omega))

/-- A second pair of parentheses takes the sign of the first one back. -/
theorem two_pairs_are_positive :
    Parenthesised "((12))".toList ∧
      ¬ NoneOr (·.value ≤ 0) (parseNumeric Nfkc.folding (some "((12))".toList)) := by
  have hvalue : parseNumeric Nfkc.folding (some "((12))".toList) =
      .ok (some ⟨⟨false, 12, 0⟩, false, false, false⟩) := by decide +kernel
  refine ⟨by decide, ?_⟩
  rw [hvalue]
  norm_num [NoneOr, Decimal.value, Decimal.magnitude]

end Ragent.ParenthesisedCells
