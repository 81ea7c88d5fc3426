import Mathlib.Algebra.Order.Field.Power
import Mathlib.Algebra.Order.Field.Rat
import Mathlib.Data.Nat.Log
import Mathlib.Tactic.FieldSimp
import Mathlib.Tactic.NormNum
import Mathlib.Tactic.Positivity
import Mathlib.Tactic.Ring

set_option autoImplicit false

/-!
# Decimal arithmetic

Finite decimals, and the rounding of a context: half to even, to so many digits and to the multiples
of its least power of ten. A result beyond the greatest exponent is signalled.
-/
namespace Ragent.Decimals

structure Decimal where
  negative : Bool
  coefficient : ℕ
  exponent : ℤ
  deriving DecidableEq

structure Context where
  prec : ℕ
  eMin : ℤ
  eMax : ℤ
  prec_pos : 0 < prec
  wide : eMin < eMax

inductive Signal
  | overflow
  deriving DecidableEq

namespace Decimal

def magnitude (d : Decimal) : ℚ := d.coefficient * 10 ^ d.exponent

def value (d : Decimal) : ℚ := if d.negative then -d.magnitude else d.magnitude

/-- The number of digits of the coefficient without leading zeros, at least one. -/
def digits (d : Decimal) : ℕ := Nat.log 10 d.coefficient + 1

end Decimal

namespace Context

def etiny (c : Context) : ℤ := c.eMin - c.prec + 1

def etop (c : Context) : ℤ := c.eMax - c.prec + 1

def last (c : Context) (d : Decimal) : ℤ := max (d.digits + d.exponent - c.prec) c.etiny

end Context

def halfEven (n m : ℕ) : ℕ :=
  if 2 * (n % m) < m then n / m
  else if m < 2 * (n % m) then n / m + 1
  else if (n / m) % 2 = 0 then n / m else n / m + 1

def Context.fix (c : Context) (d : Decimal) : Except Signal Decimal :=
  if d.coefficient = 0 then .ok { d with exponent := min (max d.exponent c.etiny) c.eMax }
  else if c.etop < d.digits + d.exponent - c.prec then .error .overflow
  else if c.last d ≤ d.exponent then .ok d
  else
    let q := halfEven d.coefficient (10 ^ (c.last d - d.exponent).toNat)
    -- rounding up may need one digit more
    if q < 10 ^ c.prec then .ok { d with coefficient := q, exponent := c.last d }
    else if c.etop < c.last d + 1 then .error .overflow
    else .ok { d with coefficient := q / 10, exponent := c.last d + 1 }

/-- The unary minus, which knows no negative zero. -/
def Context.minus (c : Context) (d : Decimal) : Except Signal Decimal :=
  c.fix { d with negative := if d.coefficient = 0 then false else !d.negative }

theorem halfEven_of_dvd {n m : ℕ} (hm : 0 < m) (h : m ∣ n) : halfEven n m = n / m := by
  unfold halfEven
  rw [if_pos (by rw [Nat.mod_eq_zero_of_dvd h]; exact hm)]

theorem halfEven_le (n m : ℕ) : halfEven n m ≤ n / m + 1 := by
  unfold halfEven
  split_ifs <;> omega

theorem le_halfEven (n m : ℕ) : n / m ≤ halfEven n m := by
  unfold halfEven
  split_ifs <;> omega

theorem halfEven_mul_eq_iff {n m : ℕ} (hm : 0 < m) : halfEven n m * m = n ↔ m ∣ n := by
  constructor
  · intro h
    exact ⟨halfEven n m, by rw [mul_comm, h]⟩
  · intro h
    rw [halfEven_of_dvd hm h, Nat.div_mul_cancel h]

section
variable {c : Context} {d d' : Decimal}

def Representable (c : Context) (d : Decimal) : Prop :=
  d.coefficient = 0 ∨ 10 ^ (c.last d - d.exponent).toNat ∣ d.coefficient

instance (c : Context) (d : Decimal) : Decidable (Representable c d) :=
  inferInstanceAs (Decidable (_ ∨ _))

theorem magnitude_nonneg (d : Decimal) : 0 ≤ d.magnitude := by
  unfold Decimal.magnitude
  positivity

theorem magnitude_eq_zero_iff (d : Decimal) : d.magnitude = 0 ↔ d.coefficient = 0 := by
  have hunit : (10 : ℚ) ^ d.exponent ≠ 0 := by positivity
  unfold Decimal.magnitude
  rw [mul_eq_zero, or_iff_left hunit, Nat.cast_eq_zero]

theorem halfEven_le_pow (hlast : d.exponent < c.last d) :
    halfEven d.coefficient (10 ^ (c.last d - d.exponent).toNat) ≤ 10 ^ c.prec := by
  have hlog : d.coefficient < 10 ^ d.digits := Nat.lt_pow_succ_log_self (by norm_num) _
  have hdigits : d.digits ≤ (c.last d - d.exponent).toNat + c.prec := by
    have hroom : d.digits + d.exponent - c.prec ≤ c.last d := le_max_left _ _
    omega
  have hlt : d.coefficient < 10 ^ (c.last d - d.exponent).toNat * 10 ^ c.prec := by
    rw [← pow_add]
    exact hlog.trans_le (Nat.pow_le_pow_right (by norm_num) hdigits)
  have hquotient : d.coefficient / 10 ^ (c.last d - d.exponent).toNat < 10 ^ c.prec :=
    Nat.div_lt_of_lt_mul hlt
  exact (halfEven_le _ _).trans hquotient

/-- A result has the sign of the operand, and its magnitude is the nearest multiple. -/
theorem of_fix (h : c.fix d = .ok d') : d'.negative = d.negative ∧
    (d'.magnitude = d.magnitude ∧ Representable c d ∨
      d.coefficient ≠ 0 ∧ d.exponent < c.last d ∧
      d'.magnitude =
        halfEven d.coefficient (10 ^ (c.last d - d.exponent).toNat) * 10 ^ c.last d) := by
  unfold Context.fix at h
  by_cases hzero : d.coefficient = 0
  · rw [if_pos hzero] at h
    cases h
    exact ⟨rfl, .inl ⟨by simp [Decimal.magnitude, hzero], .inl hzero⟩⟩
  · rw [if_neg hzero] at h
    split at h
    · cases h
    · by_cases hlast : c.last d ≤ d.exponent
      · rw [if_pos hlast] at h
        cases h
        refine ⟨rfl, .inl ⟨rfl, .inr ?_⟩⟩
        rw [Int.toNat_of_nonpos (by omega), pow_zero]
        exact one_dvd _
      · rw [if_neg hlast] at h
        dsimp only at h
        have hle := halfEven_le_pow (not_le.mp hlast)
        split at h
        · cases h
          exact ⟨rfl, .inr ⟨hzero, not_le.mp hlast, rfl⟩⟩
        · next hq =>
          split at h
          · cases h
          · cases h
            refine ⟨rfl, .inr ⟨hzero, not_le.mp hlast, ?_⟩⟩
            have hpow : halfEven d.coefficient (10 ^ (c.last d - d.exponent).toNat) =
                10 ^ (c.prec - 1) * 10 := by
              rw [← pow_succ, Nat.sub_add_cancel c.prec_pos]
              exact le_antisymm hle (not_lt.mp hq)
            unfold Decimal.magnitude
            dsimp only
            rw [hpow, Nat.mul_div_cancel _ (by norm_num), zpow_add₀ (by norm_num), zpow_one]
            push_cast
            ring

theorem scale_last (hlast : d.exponent < c.last d) :
    (10 : ℚ) ^ c.last d = 10 ^ (c.last d - d.exponent).toNat * 10 ^ d.exponent := by
  rw [← zpow_natCast, Int.toNat_of_nonneg (by omega), ← zpow_add₀ (by norm_num), Int.sub_add_cancel]

/-- Rounding changes nothing exactly where there was nothing to round. -/
theorem fix_magnitude_iff (h : c.fix d = .ok d') :
    d'.magnitude = d.magnitude ↔ Representable c d := by
  obtain ⟨-, ⟨hsame, hrepresentable⟩ | ⟨hzero, hlast, hrounded⟩⟩ := of_fix h
  · exact ⟨fun _ => hrepresentable, fun _ => hsame⟩
  · have hunit : (10 : ℚ) ^ d.exponent ≠ 0 := by positivity
    rw [hrounded, scale_last hlast, ← mul_assoc, Decimal.magnitude, mul_left_inj' hunit]
    have hpos : 0 < 10 ^ (c.last d - d.exponent).toNat := by positivity
    constructor
    · intro heq
      exact .inr ((halfEven_mul_eq_iff hpos).mp (by exact_mod_cast heq))
    · intro hrepresentable
      have heq := (halfEven_mul_eq_iff hpos).mpr (hrepresentable.resolve_left hzero)
      exact_mod_cast heq

def Context.nearest (c : Context) (d : Decimal) : ℚ :=
  if Representable c d then d.magnitude
  else halfEven d.coefficient (10 ^ (c.last d - d.exponent).toNat) * 10 ^ c.last d

theorem fix_magnitude (h : c.fix d = .ok d') : d'.magnitude = c.nearest d := by
  unfold Context.nearest
  by_cases hrepresentable : Representable c d
  · rw [if_pos hrepresentable, fix_magnitude_iff h]
    exact hrepresentable
  · rw [if_neg hrepresentable]
    obtain ⟨-, ⟨-, hrepresentable'⟩ | ⟨-, -, hrounded⟩⟩ := of_fix h
    · exact absurd hrepresentable' hrepresentable
    · exact hrounded

def OnGrid (e : ℤ) (q : ℚ) : Prop := ∃ k : ℕ, q = k * 10 ^ e

theorem OnGrid.mono {a b : ℤ} {q : ℚ} (h : OnGrid b q) (hab : a ≤ b) : OnGrid a q := by
  obtain ⟨k, hk⟩ := h
  refine ⟨k * 10 ^ (b - a).toNat, ?_⟩
  have hsplit : b = (b - a).toNat + a := by omega
  rw [hk]
  conv_lhs => rw [hsplit, zpow_add₀ (by norm_num), zpow_natCast]
  push_cast
  ring

theorem representable_iff_onGrid : Representable c d ↔ OnGrid (c.last d) d.magnitude := by
  have hunit : (10 : ℚ) ^ d.exponent ≠ 0 := by positivity
  have hown : OnGrid d.exponent d.magnitude := ⟨d.coefficient, rfl⟩
  by_cases hlast : c.last d ≤ d.exponent
  · refine iff_of_true (.inr ?_) (hown.mono hlast)
    rw [Int.toNat_of_nonpos (by omega), pow_zero]
    exact one_dvd _
  · have hscale := scale_last (not_le.mp hlast)
    constructor
    · intro h
      have hdvd : 10 ^ (c.last d - d.exponent).toNat ∣ d.coefficient := by
        cases h with
        | inl hzero => exact hzero ▸ dvd_zero _
        | inr hdvd => exact hdvd
      obtain ⟨k, hk⟩ := hdvd
      refine ⟨k, ?_⟩
      rw [hscale, Decimal.magnitude, hk]
      push_cast
      ring
    · intro h
      obtain ⟨k, hk⟩ := h
      rw [hscale, ← mul_assoc, Decimal.magnitude, mul_left_inj' hunit] at hk
      exact .inr ⟨k, by rw [mul_comm]; exact_mod_cast hk⟩

theorem nearest_of_lt_last (hlast : d.exponent < c.last d) :
    c.nearest d = halfEven d.coefficient (10 ^ (c.last d - d.exponent).toNat) * 10 ^ c.last d := by
  unfold Context.nearest
  by_cases hrepresentable : Representable c d
  · rw [if_pos hrepresentable, scale_last hlast, ← mul_assoc]
    have hdvd : 10 ^ (c.last d - d.exponent).toNat ∣ d.coefficient := by
      cases hrepresentable with
      | inl hzero => exact hzero ▸ dvd_zero _
      | inr hdvd => exact hdvd
    have hexact := (halfEven_mul_eq_iff (by positivity)).mpr hdvd
    have hcast : (halfEven d.coefficient (10 ^ (c.last d - d.exponent).toNat) : ℚ) *
        10 ^ (c.last d - d.exponent).toNat = d.coefficient := by exact_mod_cast hexact
    rw [hcast, Decimal.magnitude]
  · rw [if_neg hrepresentable]

theorem nearest_of_last_le (hlast : c.last d ≤ d.exponent) : c.nearest d = d.magnitude := by
  unfold Context.nearest
  rw [if_pos]
  right
  rw [Int.toNat_of_nonpos (by omega), pow_zero]
  exact one_dvd _

theorem magnitude_lt (d : Decimal) : d.magnitude < 10 ^ (d.digits + d.exponent) := by
  have hlog : d.coefficient < 10 ^ d.digits := Nat.lt_pow_succ_log_self (by norm_num) _
  rw [zpow_add₀ (by norm_num), zpow_natCast, Decimal.magnitude]
  exact mul_lt_mul_of_pos_right (by exact_mod_cast hlog) (by positivity)

theorem le_magnitude (hzero : d.coefficient ≠ 0) :
    (10 : ℚ) ^ (d.digits + d.exponent - 1) ≤ d.magnitude := by
  have hlog : 10 ^ (d.digits - 1) ≤ d.coefficient := Nat.pow_log_le_self 10 hzero
  have hdigits : 1 ≤ d.digits := Nat.le_add_left _ _
  have hsplit : (d.digits : ℤ) + d.exponent - 1 = (d.digits - 1 : ℕ) + d.exponent := by omega
  rw [hsplit, zpow_add₀ (by norm_num), zpow_natCast, Decimal.magnitude]
  exact mul_le_mul_of_nonneg_right (by exact_mod_cast hlog) (by positivity)

theorem representable_iff_of_significant {n : ℕ} {e : ℤ} (hn : n < 10 ^ c.prec)
    (h : d.magnitude = n * 10 ^ e) : Representable c d ↔ OnGrid c.etiny d.magnitude := by
  rw [representable_iff_onGrid]
  constructor
  · intro hgrid
    exact hgrid.mono (le_max_right _ _)
  · intro hgrid
    by_cases hzero : d.coefficient = 0
    · exact ⟨0, by rw [(magnitude_eq_zero_iff d).mpr hzero]; simp⟩
    · by_cases hlast : c.last d = c.etiny
      · rw [hlast]
        exact hgrid
      · have hroom : c.last d = d.digits + d.exponent - c.prec := by
          unfold Context.last at hlast ⊢
          omega
        have hlt : (10 : ℚ) ^ (d.digits + d.exponent - 1) < 10 ^ ((c.prec : ℤ) + e) := by
          refine (le_magnitude hzero).trans_lt ?_
          rw [h, zpow_add₀ (by norm_num), zpow_natCast]
          exact mul_lt_mul_of_pos_right (by exact_mod_cast hn) (by positivity)
        have hle := (zpow_lt_zpow_iff_right₀ (by norm_num)).mp hlt
        have hown : OnGrid e d.magnitude := ⟨n, h⟩
        exact hown.mono (by omega)

theorem le_nearest (hzero : d.coefficient ≠ 0) (hlast : c.last d = d.digits + d.exponent - c.prec) :
    (10 : ℚ) ^ (d.digits + d.exponent - 1) ≤ c.nearest d := by
  have hlog : 10 ^ (d.digits - 1) ≤ d.coefficient := Nat.pow_log_le_self 10 hzero
  have hdigits : 1 ≤ d.digits := Nat.le_add_left _ _
  have hprec := c.prec_pos
  by_cases hle : c.last d ≤ d.exponent
  · rw [nearest_of_last_le hle]
    exact le_magnitude hzero
  · have hquotient : 10 ^ (c.prec - 1) ≤ d.coefficient / 10 ^ (c.last d - d.exponent).toNat := by
      rw [Nat.le_div_iff_mul_le (by positivity), ← pow_add]
      refine le_trans (le_of_eq ?_) hlog
      congr 1
      omega
    have hrounded := hquotient.trans (le_halfEven _ _)
    have hsplit : (d.digits : ℤ) + d.exponent - 1 = (c.prec - 1 : ℕ) + c.last d := by omega
    rw [nearest_of_lt_last (not_le.mp hle), hsplit, zpow_add₀ (by norm_num), zpow_natCast]
    exact mul_le_mul_of_nonneg_right (by exact_mod_cast hrounded) (by positivity)

theorem overflow_of_etop_lt (hzero : d.coefficient ≠ 0)
    (hover : c.etop < d.digits + d.exponent - c.prec) :
    c.fix d = .error .overflow ∧ (10 : ℚ) ^ (c.eMax + 1) ≤ c.nearest d := by
  have hwide := c.wide
  have hlast : c.last d = d.digits + d.exponent - c.prec := by
    unfold Context.last Context.etiny
    unfold Context.etop at hover
    omega
  constructor
  · unfold Context.fix
    rw [if_neg hzero, if_pos hover]
  · refine (zpow_le_zpow_right₀ (by norm_num) ?_).trans (le_nearest hzero hlast)
    unfold Context.etop at hover
    omega

theorem fix_rounded_ok_iff (hzero : d.coefficient ≠ 0)
    (hover : ¬ c.etop < d.digits + d.exponent - c.prec) (hlt : d.exponent < c.last d) :
    (∃ d', c.fix d = .ok d') ↔ c.nearest d < 10 ^ (c.eMax + 1) := by
  have hwide := c.wide
  have htop : c.last d + c.prec ≤ c.eMax + 1 := by
    unfold Context.last Context.etiny
    unfold Context.etop at hover
    omega
  have hle := halfEven_le_pow hlt
  unfold Context.fix
  rw [if_neg hzero, if_neg hover, if_neg (not_le.mpr hlt), nearest_of_lt_last hlt]
  dsimp only
  generalize halfEven d.coefficient (10 ^ (c.last d - d.exponent).toNat) = q at hle ⊢
  by_cases hq : q < 10 ^ c.prec
  · rw [if_pos hq, iff_true_left ⟨_, rfl⟩]
    have hlt' : (q : ℚ) * 10 ^ c.last d < 10 ^ c.prec * 10 ^ c.last d :=
      mul_lt_mul_of_pos_right (by exact_mod_cast hq) (by positivity)
    refine hlt'.trans_le ?_
    rw [← zpow_natCast, ← zpow_add₀ (by norm_num)]
    exact zpow_le_zpow_right₀ (by norm_num) (by omega)
  · have hpow : q = 10 ^ c.prec := le_antisymm hle (not_lt.mp hq)
    rw [if_neg hq, hpow]
    push_cast
    rw [← zpow_natCast, ← zpow_add₀ (by norm_num), zpow_lt_zpow_iff_right₀ (by norm_num)]
    unfold Context.etop
    by_cases hroom : c.eMax - c.prec + 1 < c.last d + 1
    · simp only [if_pos hroom, reduceCtorEq, exists_false, false_iff]
      omega
    · simp only [if_neg hroom, Except.ok.injEq, exists_eq', true_iff]
      omega

/-- There is a result exactly where the magnitude it has is below the next power of ten. -/
theorem fix_ok_iff : (∃ d', c.fix d = .ok d') ↔ c.nearest d < 10 ^ (c.eMax + 1) := by
  by_cases hzero : d.coefficient = 0
  · have hfix : ∃ d', c.fix d = .ok d' := ⟨_, if_pos hzero⟩
    have hnearest : c.nearest d = 0 := by
      rw [Context.nearest, if_pos (.inl hzero)]
      exact (magnitude_eq_zero_iff d).mpr hzero
    rw [iff_true_left hfix, hnearest]
    positivity
  · by_cases hover : c.etop < d.digits + d.exponent - c.prec
    · obtain ⟨hfix, hle⟩ := overflow_of_etop_lt hzero hover
      simp [hfix, hle]
    · by_cases hlast : c.last d ≤ d.exponent
      · have hfix : ∃ d', c.fix d = .ok d' := by
          unfold Context.fix
          rw [if_neg hzero, if_neg hover, if_pos hlast]
          exact ⟨d, rfl⟩
        rw [iff_true_left hfix, nearest_of_last_le hlast]
        refine (magnitude_lt d).trans_le (zpow_le_zpow_right₀ (by norm_num) ?_)
        unfold Context.etop at hover
        omega
      · exact fix_rounded_ok_iff hzero hover (not_le.mp hlast)

theorem of_minus (hsign : d.negative = false) (h : c.minus d = .ok d') :
    d'.value = -d'.magnitude ∧ d'.magnitude = c.nearest d ∧
      (d'.magnitude = d.magnitude ↔ Representable c d) := by
  have hexact := fix_magnitude_iff h
  have hnearest := fix_magnitude h
  have hnegative := (of_fix h).1
  refine ⟨?_, hnearest, hexact⟩
  by_cases hzero : d.coefficient = 0
  · have hmagnitude : d'.magnitude = 0 := by
      rw [hexact.mpr (.inl hzero)]
      exact (magnitude_eq_zero_iff _).mpr hzero
    unfold Decimal.value
    rw [hmagnitude, neg_zero, ite_self]
  · have hminus : d'.negative = true := by simpa [hzero, hsign] using hnegative
    exact if_pos hminus

theorem minus_ok_iff : (∃ d', c.minus d = .ok d') ↔ c.nearest d < 10 ^ (c.eMax + 1) := by
  unfold Context.minus
  exact fix_ok_iff

/-- The minus is exact where nothing is rounded and the result is not too great. -/
theorem minus_exact_iff (hsign : d.negative = false) :
    (∃ d', c.minus d = .ok d' ∧ d'.value = -d.magnitude) ↔
      Representable c d ∧ d.magnitude < 10 ^ (c.eMax + 1) := by
  constructor
  · intro h
    obtain ⟨d', hok, hvalue⟩ := h
    have hminus := of_minus hsign hok
    rw [hminus.1, neg_inj] at hvalue
    have hsmall := minus_ok_iff.mp ⟨d', hok⟩
    rw [← hminus.2.1, hvalue] at hsmall
    exact ⟨hminus.2.2.mp hvalue, hsmall⟩
  · intro h
    obtain ⟨d', hok⟩ := minus_ok_iff.mpr (by rw [Context.nearest, if_pos h.1]; exact h.2)
    have hminus := of_minus hsign hok
    exact ⟨d', hok, by rw [hminus.1, hminus.2.2.mpr h.1]⟩

end
end Ragent.Decimals
