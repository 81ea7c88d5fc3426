import Ragent.NumericCells

set_option autoImplicit false

/-!
# What a numeral reads

The place values of its digits, in front of the point and behind it.
-/
namespace Ragent.Numerals
open FlowText Decimals NumericCells

theorem numeral_chars {text : List Char} (h : isNumeral text = true) :
    ∀ c ∈ text, isDecimal c = true ∨ c = '.' := by
  intro c hc
  rw [← List.takeWhile_append_dropWhile (p := isDecimal) (l := text), List.mem_append] at hc
  unfold isNumeral at h
  cases hc with
  | inl hc => exact .inl (List.mem_takeWhile_imp hc)
  | inr hc =>
    split at h
    · next hnil =>
      rw [hnil] at hc
      cases hc
    · next mark fraction hrest =>
      rw [hrest] at hc
      simp only [Bool.and_eq_true, beq_iff_eq, List.all_eq_true] at h
      cases List.mem_cons.mp hc with
      | inl heq => exact .inr (heq.trans h.1.1)
      | inr hc => exact .inl (h.1.2 c hc)

theorem digit_of_numeral {text : List Char} (h : isNumeral text = true) :
    ∃ c ∈ text, isDecimal c = true := by
  have hsplit := List.takeWhile_append_dropWhile (p := isDecimal) (l := text)
  unfold isNumeral at h
  cases hdigits : text.takeWhile isDecimal with
  | cons c digits =>
    have hc : c ∈ text.takeWhile isDecimal := by rw [hdigits]; exact List.mem_cons_self
    exact ⟨c, (List.takeWhile_prefix isDecimal).sublist.subset hc, List.mem_takeWhile_imp hc⟩
  | nil =>
    rw [hdigits, List.nil_append] at hsplit
    split at h
    · next hnil =>
      rw [hnil] at hsplit
      rw [← hsplit] at h
      cases h
    · next mark fraction hrest =>
      rw [hdigits] at h
      cases fraction with
      | nil => simp at h
      | cons c fraction =>
        simp only [List.all_cons, Bool.and_eq_true] at h
        refine ⟨c, ?_, h.1.2.1⟩
        rw [← hsplit, hrest]
        simp

def whole : List Char → ℕ
  | [] => 0
  | c :: digits => digitValue c * 10 ^ digits.length + whole digits

def fractional : List Char → ℚ
  | [] => 0
  | c :: digits => (digitValue c + fractional digits) / 10

def reading (text : List Char) : ℚ :=
  whole (text.takeWhile isDecimal) + fractional (text.dropWhile isDecimal).tail

theorem whole_append (digits digits' : List Char) :
    whole (digits ++ digits') = whole digits * 10 ^ digits'.length + whole digits' := by
  induction digits with
  | nil => simp [whole]
  | cons c digits ih =>
    rw [List.cons_append, whole, whole, ih, List.length_append, pow_add]
    ring

theorem foldl_eq_whole (digits : List Char) (n : ℕ) :
    digits.foldl (fun n c => 10 * n + digitValue c) n = n * 10 ^ digits.length + whole digits := by
  induction digits generalizing n with
  | nil => simp [whole]
  | cons c digits ih =>
    rw [List.foldl_cons, ih, whole, List.length_cons, pow_succ]
    ring

theorem digitValue_lt (c : Char) : digitValue c < 10 := by
  unfold digitValue
  cases hfind : decimalZeros.find? fun z => z ≤ c.toNat && c.toNat < z + 10 with
  | none => exact Nat.succ_pos 9
  | some z =>
    have hrange := List.find?_some hfind
    simp only [Bool.and_eq_true, decide_eq_true_eq] at hrange
    simp only [Option.map_some, Option.getD_some]
    omega

theorem whole_lt (digits : List Char) : whole digits < 10 ^ digits.length := by
  induction digits with
  | nil => exact Nat.one_pos
  | cons c digits ih =>
    have hdigit := digitValue_lt c
    have hle : digitValue c * 10 ^ digits.length ≤ 9 * 10 ^ digits.length :=
      Nat.mul_le_mul_right _ (by omega)
    rw [whole, List.length_cons, pow_succ]
    omega

theorem fractional_eq (digits : List Char) :
    fractional digits = whole digits * 10 ^ (-(digits.length : ℤ)) := by
  induction digits with
  | nil => simp [fractional, whole]
  | cons c digits ih =>
    rw [fractional, ih, whole, List.length_cons]
    push_cast
    rw [neg_add, zpow_add₀ (by norm_num), zpow_neg, zpow_natCast]
    field_simp

theorem filter_numeral {text : List Char} (h : isNumeral text = true) :
    text.filter isDecimal = text.takeWhile isDecimal ++ (text.dropWhile isDecimal).tail := by
  have hdigits : (text.takeWhile isDecimal).filter isDecimal = text.takeWhile isDecimal :=
    List.filter_eq_self.mpr fun c hc => List.mem_takeWhile_imp hc
  have hrest : (text.dropWhile isDecimal).filter isDecimal = (text.dropWhile isDecimal).tail := by
    unfold isNumeral at h
    split at h
    · next hnil => rw [hnil, List.filter_nil, List.tail_nil]
    · next c fraction hrest =>
      have hfirst : isDecimal c = false := by
        have hhead := List.head?_dropWhile_not isDecimal text
        rw [hrest] at hhead
        simpa using hhead
      simp only [Bool.and_eq_true, List.all_eq_true] at h
      rw [hrest, List.filter_cons_of_neg (by simp [hfirst]), List.tail_cons,
        List.filter_eq_self.mpr h.1.2]
  rw [← hdigits, ← hrest, ← List.filter_append, List.takeWhile_append_dropWhile]

/-- `Decimal(text)` is what the numeral reads. -/
theorem decimalOf_magnitude {text : List Char} (h : isNumeral text = true) :
    (decimalOf text).magnitude = reading text := by
  unfold decimalOf Decimal.magnitude reading
  dsimp only
  rw [filter_numeral h, foldl_eq_whole, zero_mul, zero_add, whole_append, fractional_eq]
  push_cast
  rw [add_mul, mul_assoc, ← zpow_natCast, ← zpow_add₀ (by norm_num), add_neg_cancel, zpow_zero,
    mul_one]

theorem decimalOf_value {text : List Char} (h : isNumeral text = true) :
    (decimalOf text).value = reading text :=
  decimalOf_magnitude h

section
variable {t f : List Char} (ht : ∀ c ∈ t, isDecimal c = true) (hf : ∀ c ∈ f, isDecimal c = true)
include ht

theorem dropWhile_digits : t.dropWhile isDecimal = [] := List.dropWhile_eq_nil_iff.mpr ht

theorem takeWhile_digits : t.takeWhile isDecimal = t := List.takeWhile_eq_self_iff.mpr ht

theorem isNumeral_digits (hne : t ≠ []) : isNumeral t = true := by
  unfold isNumeral
  rw [dropWhile_digits ht]
  simpa using hne

theorem reading_digits : reading t = whole t := by
  unfold reading
  rw [dropWhile_digits ht, takeWhile_digits ht]
  simp [fractional]

theorem dropWhile_point : (t ++ '.' :: f).dropWhile isDecimal = '.' :: f := by
  rw [List.dropWhile_append_of_pos ht, List.dropWhile_cons_of_neg (by decide)]

theorem takeWhile_point : (t ++ '.' :: f).takeWhile isDecimal = t := by
  rw [List.takeWhile_append_of_pos ht, List.takeWhile_cons_of_neg (by decide),
    List.append_nil]

theorem reading_point : reading (t ++ '.' :: f) = whole t + fractional f := by
  unfold reading
  rw [dropWhile_point ht, takeWhile_point ht, List.tail_cons]

include hf

theorem isNumeral_point (hne : t ≠ [] ∨ f ≠ []) : isNumeral (t ++ '.' :: f) = true := by
  unfold isNumeral
  rw [dropWhile_point ht, takeWhile_point ht]
  simp only [beq_self_eq_true, Bool.true_and, Bool.and_eq_true, List.all_eq_true,
    Bool.not_eq_true', Bool.and_eq_false_iff, List.isEmpty_eq_false_iff]
  exact ⟨hf, hne⟩

end

theorem numeral_cases {text : List Char} (h : isNumeral text = true) :
    (∀ c ∈ text, isDecimal c = true) ∨ ∃ t f, text = t ++ '.' :: f ∧
      (∀ c ∈ t, isDecimal c = true) ∧ (∀ c ∈ f, isDecimal c = true) ∧ (t ≠ [] ∨ f ≠ []) := by
  have hsplit := List.takeWhile_append_dropWhile (p := isDecimal) (l := text)
  unfold isNumeral at h
  split at h
  · next hnil => exact .inl (List.dropWhile_eq_nil_iff.mp hnil)
  · next c f hrest =>
    simp only [Bool.and_eq_true, beq_iff_eq, List.all_eq_true, Bool.not_eq_true',
      Bool.and_eq_false_iff, List.isEmpty_eq_false_iff] at h
    refine .inr ⟨text.takeWhile isDecimal, f, ?_, fun c hc => List.mem_takeWhile_imp hc, h.1.2, h.2⟩
    rw [hrest, h.1.1] at hsplit
    exact hsplit.symm

theorem fractional_append (f m : List Char) :
    fractional (f ++ m) = fractional f + whole m * 10 ^ (-((f ++ m).length : ℤ)) := by
  rw [fractional_eq, fractional_eq, whole_append, List.length_append]
  push_cast
  rw [neg_add, zpow_add₀ (by norm_num), zpow_neg, zpow_neg, zpow_natCast, zpow_natCast]
  field_simp

theorem eq_nil_of_digits {l v : List Char} (hl : ∀ c ∈ l, isDecimal c = true)
    (hv : ∀ c ∈ v, isDecimal c = false) (hsub : l ⊆ v) : l = [] := by
  apply List.eq_nil_iff_forall_not_mem.mpr
  intro c hc
  have hfalse := hv c (hsub hc)
  rw [hl c hc] at hfalse
  cases hfalse

theorem point_not_mem {l : List Char} (hl : ∀ c ∈ l, isDecimal c = true) : '.' ∉ l := fun hmem =>
  absurd (hl '.' hmem) (by decide)

/-- Where the text behind the last digit begins: behind digits only, at the point, or behind the
    digits that follow it. -/
theorem numeral_split {w v : List Char} (h : isNumeral (w ++ v) = true)
    (hv : ∀ c ∈ v, isDecimal c = false) :
    ((∀ c ∈ w, isDecimal c = true) ∧ (v = [] ∨ v = ['.'])) ∨
      ∃ t f, w = t ++ '.' :: f ∧ v = [] ∧ (∀ c ∈ t, isDecimal c = true) ∧
        (∀ c ∈ f, isDecimal c = true) ∧ (t ≠ [] ∨ f ≠ []) := by
  cases numeral_cases h with
  | inl hall =>
    have hnil : v = [] :=
      eq_nil_of_digits (fun c hc => hall c (List.mem_append_right w hc)) hv (List.Subset.refl v)
    exact .inl ⟨fun c hc => hall c (List.mem_append_left v hc), .inl hnil⟩
  | inr hpoint =>
    obtain ⟨t, f, heq, ht, hf, hsome⟩ := hpoint
    have hbehind : w = t → v = '.' :: f → (∀ c ∈ w, isDecimal c = true) ∧ (v = [] ∨ v = ['.']) := by
      intro hw hv'
      have hfnil : f = [] := eq_nil_of_digits hf hv (hv' ▸ List.subset_cons_self '.' f)
      exact ⟨hw ▸ ht, .inr (by rw [hv', hfnil])⟩
    cases List.append_eq_append_iff.mp heq with
    | inl hshort =>
      obtain ⟨b, ht', hv'⟩ := hshort
      have hb : b = [] := by
        apply eq_nil_of_digits _ hv (hv' ▸ List.subset_append_left b _)
        exact fun c hc => ht c (ht' ▸ List.mem_append_right w hc)
      rw [hb, List.append_nil] at ht'
      rw [hb, List.nil_append] at hv'
      exact .inl (hbehind ht'.symm hv')
    | inr hlong =>
      obtain ⟨a, hw, ha⟩ := hlong
      cases a with
      | nil =>
        rw [List.append_nil] at hw
        exact .inl (hbehind hw ha.symm)
      | cons c a =>
        rw [List.cons_append, List.cons.injEq] at ha
        have hnil : v = [] := by
          apply eq_nil_of_digits _ hv (List.Subset.refl v)
          exact fun c hc => hf c (ha.2 ▸ List.mem_append_right a hc)
        rw [hnil, List.append_nil] at ha
        exact .inr ⟨t, f, by rw [hw, ha.1, ha.2], hnil, ht, hf, hsome⟩

theorem numeral_insert {w v m : List Char} (h : isNumeral (w ++ v) = true) (hne : w ≠ [])
    (hv : ∀ c ∈ v, isDecimal c = false) (hm : ∀ c ∈ m, isDecimal c = true) :
    isNumeral (w ++ m ++ v) = true ∧
      ∃ n : ℤ, reading (w ++ m ++ v) =
        if '.' ∈ w then reading (w ++ v) + whole m * 10 ^ n
        else reading (w ++ v) * 10 ^ m.length + whole m := by
  have happend : ∀ {l : List Char}, (∀ c ∈ l, isDecimal c = true) →
      ∀ c ∈ l ++ m, isDecimal c = true := fun hl c hc =>
    (List.mem_append.mp hc).elim (hl c) (hm c)
  cases numeral_split h hv with
  | inl hdigits =>
    obtain ⟨hw, hbehind⟩ := hdigits
    have hfront := happend hw
    have hpoint := point_not_mem hw
    cases hbehind with
    | inl hnil =>
      subst hnil
      refine ⟨?_, 0, ?_⟩
      · rw [List.append_nil]
        exact isNumeral_digits hfront (by simp [hne])
      · rw [List.append_nil, List.append_nil, if_neg hpoint, reading_digits hfront,
          reading_digits hw, whole_append]
        push_cast
        rfl
    | inr hend =>
      subst hend
      refine ⟨isNumeral_point hfront (by simp) (.inl (by simp [hne])), 0, ?_⟩
      rw [if_neg hpoint, reading_point hfront, reading_point hw, whole_append]
      push_cast
      simp [fractional]
  | inr hinside =>
    obtain ⟨t, f, hw, hnil, ht, hf, hsome⟩ := hinside
    subst hnil hw
    have hback := happend hf
    rw [List.append_nil, List.append_nil, List.append_assoc, List.cons_append]
    have hsome' : t ≠ [] ∨ f ++ m ≠ [] := by
      cases hsome with
      | inl ht' => exact .inl ht'
      | inr hf' => exact .inr (by simp [hf'])
    refine ⟨isNumeral_point ht hback hsome', -((f ++ m).length : ℤ), ?_⟩
    rw [if_pos (by simp), reading_point ht, reading_point ht, fractional_append]
    ring

theorem whole_eq_zero_iff (m : List Char) : whole m = 0 ↔ ∀ c ∈ m, digitValue c = 0 := by
  induction m with
  | nil => simp [whole]
  | cons c m ih => simp [whole, ih]

/-- Digits put in leave the reading as it is where all of them are zero, behind a point or on zero. -/
theorem reading_insert_iff {w v m : List Char} (h : isNumeral (w ++ v) = true) (hne : w ≠ [])
    (hv : ∀ c ∈ v, isDecimal c = false) (hm : ∀ c ∈ m, isDecimal c = true) (hmne : m ≠ []) :
    reading (w ++ m ++ v) = reading (w ++ v) ↔
      (∀ c ∈ m, digitValue c = 0) ∧ ('.' ∈ w ∨ reading (w ++ v) = 0) := by
  obtain ⟨-, n, hreading⟩ := numeral_insert h hne hv hm
  have hnonneg : 0 ≤ reading (w ++ v) := by
    rw [← decimalOf_magnitude h]
    exact magnitude_nonneg _
  have hunit : (10 : ℚ) ^ n ≠ 0 := by positivity
  rw [hreading, ← whole_eq_zero_iff]
  by_cases hpoint : '.' ∈ w
  · simp [hpoint, hunit]
  · have hgrow : (1 : ℚ) < 10 ^ m.length := one_lt_pow₀ (by norm_num) (by simpa using hmne)
    have hwhole : (0 : ℚ) ≤ whole m := Nat.cast_nonneg _
    simp only [hpoint, if_false, false_or]
    constructor
    · intro heq
      have hzero : reading (w ++ v) * (10 ^ m.length - 1) + whole m = 0 := by
        rw [← sub_eq_zero.mpr heq]
        ring
      have hproduct : 0 ≤ reading (w ++ v) * (10 ^ m.length - 1) :=
        mul_nonneg hnonneg (sub_nonneg.mpr hgrow.le)
      have hboth := (add_eq_zero_iff_of_nonneg hproduct hwhole).mp hzero
      refine ⟨by exact_mod_cast hboth.2, ?_⟩
      exact (mul_eq_zero.mp hboth.1).resolve_right (sub_pos.mpr hgrow).ne'
    · intro hboth
      rw [hboth.2, hboth.1]
      simp

end Ragent.Numerals
