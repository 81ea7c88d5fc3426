import Mathlib.Algebra.Order.Field.Basic
import Mathlib.Algebra.Order.Floor.Ring
import Mathlib.Data.List.Sort
import Mathlib.Tactic.Linarith

set_option autoImplicit false

/-!
# Order statistics

How many elements of a list lie below one of its order statistics, and below a value interpolated
between two of them.
-/
namespace OrderStatistics

section
variable {β : Type} [LinearOrder β]

def below (v : β) (l : List β) : ℕ := l.countP fun x => x < v

theorem below_perm {l m : List β} (h : l.Perm m) (v : β) : below v l = below v m :=
  h.countP_eq _

theorem below_mono {v w : β} (h : v ≤ w) (l : List β) : below v l ≤ below w l := by
  apply List.countP_mono_left
  intro x _ hx
  simp only [decide_eq_true_eq] at hx ⊢
  exact hx.trans_le h

theorem below_eq_zero {v : β} {l : List β} (h : ∀ x ∈ l, v ≤ x) : below v l = 0 := by
  rw [below, List.countP_eq_zero]
  intro x hx
  simpa using h x hx

theorem below_getElem_le {l : List β} (hl : l.Pairwise (· ≤ ·)) {k : ℕ} (hk : k < l.length) :
    below l[k] l ≤ k := by
  induction l generalizing k with
  | nil => simp at hk
  | cons a l ih =>
    obtain ⟨ha, hl⟩ := List.pairwise_cons.mp hl
    cases k with
    | zero =>
      have hnone : below a (a :: l) = 0 := by
        apply below_eq_zero
        intro x hx
        rcases List.mem_cons.mp hx with rfl | hx
        · exact le_refl x
        · exact ha x hx
      exact hnone.le
    | succ k =>
      have htail := ih hl (Nat.lt_of_succ_lt_succ hk)
      rw [List.getElem_cons_succ, below, List.countP_cons]
      rw [below] at htail
      split_ifs <;> omega

end

section
variable {R : Type} [Field R] [LinearOrder R] [IsStrictOrderedRing R]

theorem interpolated_between {a b t : R} (hab : a ≤ b) (h0 : 0 ≤ t) (h1 : t ≤ 1) :
    a ≤ a + (b - a) * t ∧ a + (b - a) * t ≤ b := by
  have hd : 0 ≤ b - a := sub_nonneg.mpr hab
  constructor
  · have hnonneg := mul_nonneg hd h0
    linarith
  · have hle := mul_le_of_le_one_right hd h1
    linarith

variable [FloorRing R]

/-- Linear interpolation between two neighbouring order statistics stays between them, and at most
    `⌈pos⌉` elements lie below the value at position `pos`. -/
theorem interpolated_orderStatistic {l : List R} (hl : l.Pairwise (· ≤ ·)) {pos : R} {lo hi : ℕ}
    (hpos : ⌊pos⌋ = (lo : ℤ)) (hlo : lo < l.length) (hhi : hi < l.length) (hle : lo ≤ hi)
    (hnext : hi ≤ lo + 1) :
    l[lo] ≤ l[lo] + (l[hi] - l[lo]) * (pos - lo) ∧
      l[lo] + (l[hi] - l[lo]) * (pos - lo) ≤ l[hi] ∧
      (below (l[lo] + (l[hi] - l[lo]) * (pos - lo)) l : ℤ) ≤ ⌈pos⌉ := by
  have hfloor : (lo : R) ≤ pos := by
    have hcast := Int.floor_le pos
    rwa [hpos, Int.cast_natCast] at hcast
  have hceil : pos < lo + 1 := by
    have hcast := Int.lt_floor_add_one pos
    rwa [hpos, Int.cast_natCast] at hcast
  have hab : l[lo] ≤ l[hi] := by
    rcases Nat.eq_or_lt_of_le hle with rfl | hlt
    · exact le_refl _
    · exact List.pairwise_iff_getElem.mp hl lo hi hlo hhi hlt
  obtain ⟨hlower, hupper⟩ := interpolated_between hab (t := pos - lo) (by linarith) (by linarith)
  refine ⟨hlower, hupper, ?_⟩
  rcases eq_or_lt_of_le hfloor with heq | hlt
  · -- at an order statistic
    have hvalue : l[lo] + (l[hi] - l[lo]) * (pos - lo) = l[lo] := by
      rw [← heq, sub_self, mul_zero, add_zero]
    have hbelow := below_getElem_le hl hlo
    rw [hvalue, ← heq, Int.ceil_natCast]
    omega
  · have hbelow := (below_mono hupper l).trans (below_getElem_le hl hhi)
    have hceil' : (lo : ℤ) < ⌈pos⌉ := by
      rw [Int.lt_ceil, Int.cast_natCast]
      exact hlt
    omega

end
end OrderStatistics
