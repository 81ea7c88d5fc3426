import Mathlib.Algebra.Order.Field.Basic
import Mathlib.Algebra.Order.Interval.Set.Monoid
import Mathlib.Algebra.Group.End
import Mathlib.GroupTheory.Perm.Basic
import Mathlib.Order.Interval.Set.UnorderedInterval
import Mathlib.Tactic.Ring
import Mathlib.Tactic.Linarith

set_option autoImplicit false

/-!
# Quarter turns of the unit square

Points are pairs, measured from the top left corner: first to the right, then down. Rectangles with
sides parallel to the axes are the order intervals of the product.
-/
namespace Ragent.QuarterTurns

section
variable {α : Type} [Ring α]

/-- One clockwise quarter turn of the square: its left edge becomes its top edge. -/
def turn : Equiv.Perm (α × α) where
  toFun p := (1 - p.2, p.1)
  invFun p := (p.2, 1 - p.1)
  left_inv p := by simp
  right_inv p := by simp

@[simp] theorem turn_apply (p : α × α) : turn p = (1 - p.2, p.1) := rfl

theorem turn_pow_four : (turn : Equiv.Perm (α × α)) ^ 4 = 1 := by
  apply Equiv.ext
  intro p
  simp [pow_succ]

/-- Only the number of turns modulo four matters, also for turns the other way. -/
theorem turn_zpow_emod (n : ℤ) : (turn : Equiv.Perm (α × α)) ^ n = turn ^ (n % 4) :=
  zpow_eq_zpow_emod n (n := 4) (by exact_mod_cast turn_pow_four)

end

structure Rect (α : Type) where
  left : α
  top : α
  right : α
  bottom : α
  deriving DecidableEq

namespace Rect

def points {α : Type} [Preorder α] (r : Rect α) : Set (α × α) :=
  Set.Icc (r.left, r.top) (r.right, r.bottom)

def Proper {α : Type} [LE α] (r : Rect α) : Prop := r.left ≤ r.right ∧ r.top ≤ r.bottom

section
variable {α : Type} [Ring α] [LinearOrder α] [IsStrictOrderedRing α]

def turned (r : Rect α) : Rect α := ⟨1 - r.bottom, r.left, 1 - r.top, r.right⟩

theorem Proper.turned {r : Rect α} (h : r.Proper) : r.turned.Proper :=
  ⟨sub_le_sub_left h.2 1, h.1⟩

theorem image_turn (r : Rect α) : Set.image turn r.points = r.turned.points := by
  apply Set.ext
  intro p
  rw [Equiv.image_eq_preimage_symm]
  simp only [points, turned, turn, Set.mem_preimage, Set.mem_Icc, Prod.le_def, Equiv.coe_fn_symm_mk]
  constructor
  · intro h
    exact ⟨⟨sub_le_comm.mp h.2.2, h.1.1⟩, le_sub_comm.mp h.1.2, h.2.1⟩
  · intro h
    exact ⟨⟨h.1.2, le_sub_comm.mp h.2.1⟩, h.2.2, sub_le_comm.mp h.1.1⟩

theorem image_turn_pow (r : Rect α) (n : ℕ) :
    Set.image ⇑(turn ^ n : Equiv.Perm (α × α)) r.points = (Rect.turned^[n] r).points := by
  induction n generalizing r with
  | zero => simp
  | succ n ih =>
    rw [pow_succ, Equiv.Perm.coe_mul, Set.image_comp, image_turn, ih, Function.iterate_succ_apply]

end

section
variable {α : Type} [Field α] [LinearOrder α] [IsStrictOrderedRing α]

/-- A point of a `w` by `h` sheet, measured from its bottom left corner, on the unit square. -/
def ofSheet (w h : α) (p : α × α) : α × α := (p.1 / w, (h - p.2) / h)

/-- The rectangle on the unit square that two opposite corners span on the sheet. -/
def spanned (w h x0 y0 x1 y1 : α) : Rect α :=
  ⟨min x0 x1 / w, (h - max y0 y1) / h, max x0 x1 / w, (h - min y0 y1) / h⟩

variable {w h : α} (hw : 0 < w) (hh : 0 < h)
include hw hh

theorem spanned_proper (x0 y0 x1 y1 : α) : (spanned w h x0 y0 x1 y1).Proper := by
  constructor
  · exact div_le_div_of_nonneg_right (min_le_max) hw.le
  · exact div_le_div_of_nonneg_right (sub_le_sub_left min_le_max h) hh.le

theorem image_ofSheet (x0 y0 x1 y1 : α) :
    Set.image (ofSheet w h) (Set.uIcc (x0, y0) (x1, y1)) = (spanned w h x0 y0 x1 y1).points := by
  apply Set.ext
  intro q
  simp only [Set.mem_image, points, spanned, ofSheet, Set.mem_Icc, Set.uIcc, Prod.le_def,
    Prod.fst_inf, Prod.snd_inf, Prod.fst_sup, Prod.snd_sup]
  constructor
  · intro hq
    obtain ⟨p, ⟨⟨hx0, hy0⟩, hx1, hy1⟩, hpq⟩ := hq
    subst hpq
    refine ⟨⟨?_, ?_⟩, ?_, ?_⟩
    · exact div_le_div_of_nonneg_right hx0 hw.le
    · exact div_le_div_of_nonneg_right (sub_le_sub_left hy1 h) hh.le
    · exact div_le_div_of_nonneg_right hx1 hw.le
    · exact div_le_div_of_nonneg_right (sub_le_sub_left hy0 h) hh.le
  · intro hq
    obtain ⟨⟨hl, ht⟩, hr, hb⟩ := hq
    rw [div_le_iff₀ hw] at hl
    rw [div_le_iff₀ hh] at ht
    rw [le_div_iff₀ hw] at hr
    rw [le_div_iff₀ hh] at hb
    refine ⟨(q.1 * w, h - q.2 * h), ⟨⟨hl, ?_⟩, hr, ?_⟩, ?_⟩
    · change min y0 y1 ≤ h - q.2 * h
      linarith
    · change h - q.2 * h ≤ max y0 y1
      linarith
    · rw [sub_sub_cancel, mul_div_cancel_right₀ _ hw.ne', mul_div_cancel_right₀ _ hh.ne']

end
end Rect
end Ragent.QuarterTurns
