import Mathlib.Algebra.Order.Field.Rat
import Mathlib.Tactic.FieldSimp
import Ragent.QuarterTurns
import Ragent.SourceTypes

set_option autoImplicit false

/-!
# From page coordinates to the displayed page

`to_normalised` of `ragent/ingest/bbox.py` and the checks of its `BBox`, in exact arithmetic.
-/
namespace Ragent.BoundingBoxes
open QuarterTurns SourceTypes

def eps : ℚ := 1 / 10 ^ 9

/-- The values the message of each `ValueError` names. -/
inductive BBoxError
  | pageDimensions (width height : ℚ)
  | unsupportedRotation (rotation : ℤ)
  | degenerate (x0 y0 x1 y1 : ℚ)
  | outsideUnitSquare (x0 y0 x1 y1 : ℚ)
  deriving DecidableEq

/-- `BBox(x0, y0, x1, y1)`, with the two tests of `__post_init__`. -/
def bbox (x0 y0 x1 y1 : ℚ) : Except BBoxError BBox :=
  if hdegenerate : x1 ≤ x0 ∨ y1 ≤ y0 then .error (.degenerate x0 y0 x1 y1)
  else if hinside : 0 ≤ x0 ∧ 0 ≤ y0 ∧ x1 ≤ 1 ∧ y1 ≤ 1 then
    .ok ⟨x0, y0, x1, y1, by simpa [not_or] using hdegenerate, hinside⟩
  else .error (.outsideUnitSquare x0 y0 x1 y1)

def clampUnit (v : ℚ) : ℚ := if v < eps then 0 else if v > 1 - eps then 1 else v

/-- The three branches on `/Rotate`: the edges, and the size of the page they are read against. -/
def rotated (rotation : ℤ) (w h : ℚ) (r : Rect ℚ) : Rect ℚ × ℚ × ℚ :=
  if rotation = 90 then (⟨h - r.bottom, r.left, h - r.top, r.right⟩, h, w)
  else if rotation = 180 then (⟨w - r.right, h - r.bottom, w - r.left, h - r.top⟩, w, h)
  else if rotation = 270 then (⟨r.top, w - r.right, r.bottom, w - r.left⟩, h, w)
  else (r, w, h)

def toNormalised (x0 y0 x1 y1 pageWidth pageHeight : ℚ) (rotation : ℤ) : Except BBoxError BBox :=
  if pageWidth ≤ 0 ∨ pageHeight ≤ 0 then .error (.pageDimensions pageWidth pageHeight)
  else
    let rotation := rotation % 360
    if rotation ∉ [0, 90, 180, 270] then .error (.unsupportedRotation rotation)
    else
      let loX := min x0 x1
      let hiX := max x0 x1
      let loY := min y0 y1
      let hiY := max y0 y1
      -- bottom-left origin to top-left origin
      let flipped : Rect ℚ := ⟨loX, pageHeight - hiY, hiX, pageHeight - loY⟩
      let (r, w, h) := rotated rotation pageWidth pageHeight flipped
      bbox (clampUnit (r.left / w)) (clampUnit (r.top / h)) (clampUnit (r.right / w))
        (clampUnit (r.bottom / h))

/-- The nearest point of the unit interval, or an end of it that is closer to this than `eps`. -/
def snapped (v : ℚ) : ℚ :=
  let c := max 0 (min 1 v)
  if |c - 0| < eps then 0 else if |c - 1| < eps then 1 else c

theorem clampUnit_eq_snapped (v : ℚ) : clampUnit v = snapped v := by
  by_cases hlow : v ≤ 0
  · have hv : v < eps := lt_of_le_of_lt hlow (by norm_num [eps])
    have hc : max 0 (min 1 v) = 0 := max_eq_left ((min_le_right 1 v).trans hlow)
    have h0 : |(0 : ℚ) - 0| < eps := by norm_num [eps]
    simp only [clampUnit, snapped, hc, if_pos hv, if_pos h0]
  · by_cases hhigh : 1 ≤ v
    · have hc : max 0 (min 1 v) = 1 := by rw [min_eq_left hhigh, max_eq_right zero_le_one]
      have hv : ¬ v < eps := not_lt.mpr (le_trans (by norm_num [eps]) hhigh)
      have hv' : v > 1 - eps := lt_of_lt_of_le (by norm_num [eps]) hhigh
      have h0 : ¬ |(1 : ℚ) - 0| < eps := by norm_num [eps]
      have h1 : |(1 : ℚ) - 1| < eps := by norm_num [eps]
      simp only [clampUnit, snapped, hc, if_neg hv, if_pos hv', if_neg h0, if_pos h1]
    · rw [not_le] at hlow hhigh
      have hc : max 0 (min 1 v) = v := by rw [min_eq_right hhigh.le, max_eq_right hlow.le]
      have h0 : |v - 0| = v := by rw [sub_zero, abs_of_pos hlow]
      have h1 : |v - 1| < eps ↔ v > 1 - eps := by
        rw [abs_of_neg (by linarith)]
        constructor <;> intro h <;> linarith
      simp only [clampUnit, snapped, hc, h0, h1]

theorem clampUnit_nonneg (v : ℚ) : 0 ≤ clampUnit v := by
  unfold clampUnit
  split
  · exact le_rfl
  · split
    · exact zero_le_one
    · exact le_trans (b := eps) (by norm_num [eps]) (not_lt.mp ‹_›)

theorem clampUnit_le_one (v : ℚ) : clampUnit v ≤ 1 := by
  unfold clampUnit
  split
  · exact zero_le_one
  · split
    · exact le_rfl
    · exact le_trans (not_lt.mp ‹_›) (by norm_num [eps])

def clamped (r : Rect ℚ) : Rect ℚ :=
  ⟨clampUnit r.left, clampUnit r.top, clampUnit r.right, clampUnit r.bottom⟩

def Degenerate (r : Rect ℚ) : Prop := r.right ≤ r.left ∨ r.bottom ≤ r.top

instance (r : Rect ℚ) : Decidable (Degenerate r) := inferInstanceAs (Decidable (_ ∨ _))

/-- The constructor on clamped edges: its second test never fires. -/
def boxOf (r : Rect ℚ) : Except BBoxError BBox :=
  bbox (clampUnit r.left) (clampUnit r.top) (clampUnit r.right) (clampUnit r.bottom)

theorem boxOf_degenerate {r : Rect ℚ} (h : Degenerate (clamped r)) :
    boxOf r = .error (.degenerate (clampUnit r.left) (clampUnit r.top) (clampUnit r.right)
      (clampUnit r.bottom)) :=
  dif_pos h

theorem boxOf_proper {r : Rect ℚ} (h : ¬ Degenerate (clamped r)) :
    ∃ box : BBox, boxOf r = .ok box ∧
      (⟨box.x0, box.y0, box.x1, box.y1⟩ : Rect ℚ) = clamped r := by
  have hinside : 0 ≤ clampUnit r.left ∧ 0 ≤ clampUnit r.top ∧ clampUnit r.right ≤ 1 ∧
      clampUnit r.bottom ≤ 1 :=
    ⟨clampUnit_nonneg _, clampUnit_nonneg _, clampUnit_le_one _, clampUnit_le_one _⟩
  have hproper : clampUnit r.left < clampUnit r.right ∧ clampUnit r.top < clampUnit r.bottom := by
    simpa [Degenerate, clamped, not_or] using h
  refine ⟨⟨_, _, _, _, hproper, hinside⟩, ?_, rfl⟩
  exact (dif_neg h).trans (dif_pos hinside)

theorem rotation_cases {rotation : ℤ} (h : 90 ∣ rotation) :
    rotation % 360 = 0 ∧ rotation / 90 % 4 = 0 ∨ rotation % 360 = 90 ∧ rotation / 90 % 4 = 1 ∨
    rotation % 360 = 180 ∧ rotation / 90 % 4 = 2 ∨ rotation % 360 = 270 ∧ rotation / 90 % 4 = 3 := by
  omega

theorem one_sub_div {w : ℚ} (hw : 0 < w) (v : ℚ) : 1 - v / w = (w - v) / w := by
  rw [sub_div, div_self hw.ne']

/-- The edges of the rectangle two corners span, on the displayed page. -/
def displayed (w h x0 y0 x1 y1 : ℚ) (rotation : ℤ) : Rect ℚ :=
  Rect.turned^[(rotation / 90 % 4).toNat] (Rect.spanned w h x0 y0 x1 y1)

variable {w h : ℚ} (hw : 0 < w) (hh : 0 < h)
include hw hh

theorem displayed_proper (x0 y0 x1 y1 : ℚ) (rotation : ℤ) :
    (displayed w h x0 y0 x1 y1 rotation).Proper := by
  unfold displayed
  induction (rotation / 90 % 4).toNat with
  | zero => exact Rect.spanned_proper hw hh x0 y0 x1 y1
  | succ n ih =>
    rw [Function.iterate_succ_apply']
    exact ih.turned

theorem image_displayed (x0 y0 x1 y1 : ℚ) (rotation : ℤ) :
    Set.image ⇑(turn ^ (rotation / 90) : Equiv.Perm (ℚ × ℚ))
        (Set.image (Rect.ofSheet w h) (Set.uIcc (x0, y0) (x1, y1))) =
      (displayed w h x0 y0 x1 y1 rotation).points := by
  have hnonneg : 0 ≤ rotation / 90 % 4 := Int.emod_nonneg _ (by norm_num)
  have hturns : (turn : Equiv.Perm (ℚ × ℚ)) ^ (rotation / 90) =
      turn ^ (rotation / 90 % 4).toNat := by
    rw [turn_zpow_emod, ← zpow_natCast, Int.toNat_of_nonneg hnonneg]
  rw [Rect.image_ofSheet hw hh, hturns, Rect.image_turn_pow]
  rfl

/-- Each branch turns the edges of the spanned rectangle as often as the page is turned. -/
theorem toNormalised_eq (x0 y0 x1 y1 : ℚ) {rotation : ℤ} (hrotation : 90 ∣ rotation) :
    toNormalised x0 y0 x1 y1 w h rotation = boxOf (displayed w h x0 y0 x1 y1 rotation) := by
  have hsize : ¬ (w ≤ 0 ∨ h ≤ 0) := by simp [hw, hh]
  unfold toNormalised displayed
  rw [if_neg hsize]
  rcases rotation_cases hrotation with ⟨hmod, hdiv⟩ | ⟨hmod, hdiv⟩ | ⟨hmod, hdiv⟩ | ⟨hmod, hdiv⟩
  · simp [hmod, hdiv, rotated, boxOf, Rect.spanned]
  · simp [hmod, hdiv, rotated, boxOf, Rect.spanned, Rect.turned, one_sub_div hh]
  · simp [hmod, hdiv, rotated, boxOf, Rect.spanned, Rect.turned, one_sub_div hw, one_sub_div hh]
  · simp [hmod, hdiv, rotated, boxOf, Rect.spanned, Rect.turned, one_sub_div hw, one_sub_div hh]

/-- A rectangle is flipped, scaled to the unit square, turned and clipped, and refused exactly when
    the clip leaves nothing of it. -/
theorem conversion_is_flip_rotate_clip (x0 y0 x1 y1 : ℚ) {rotation : ℤ} (h90 : 90 ∣ rotation) :
    ∃ r : Rect ℚ, r.Proper ∧
      Set.image ⇑(turn ^ (rotation / 90) : Equiv.Perm (ℚ × ℚ))
        (Set.image (Rect.ofSheet w h) (Set.uIcc (x0, y0) (x1, y1))) = r.points ∧
      ((∃ e, toNormalised x0 y0 x1 y1 w h rotation = .error e) ↔
        snapped r.right ≤ snapped r.left ∨ snapped r.bottom ≤ snapped r.top) ∧
      ∀ box : BBox, toNormalised x0 y0 x1 y1 w h rotation = .ok box →
        box.x0 = snapped r.left ∧ box.y0 = snapped r.top ∧
        box.x1 = snapped r.right ∧ box.y1 = snapped r.bottom ∧
        box.x0 < box.x1 ∧ box.y0 < box.y1 ∧ 0 ≤ box.x0 ∧ 0 ≤ box.y0 ∧ box.x1 ≤ 1 ∧ box.y1 ≤ 1 := by
  refine ⟨displayed w h x0 y0 x1 y1 rotation, displayed_proper hw hh x0 y0 x1 y1 rotation,
    image_displayed hw hh x0 y0 x1 y1 rotation, ?_, ?_⟩
  · rw [toNormalised_eq hw hh x0 y0 x1 y1 h90]
    simp only [← clampUnit_eq_snapped]
    constructor
    · intro h
      by_contra hproper
      obtain ⟨e, he⟩ := h
      obtain ⟨box, hbox, -⟩ := boxOf_proper hproper
      rw [hbox] at he
      cases he
    · intro hdegenerate
      exact ⟨_, boxOf_degenerate hdegenerate⟩
  · intro box hbox
    rw [toNormalised_eq hw hh x0 y0 x1 y1 h90] at hbox
    simp only [← clampUnit_eq_snapped]
    by_cases hdegenerate : Degenerate (clamped (displayed w h x0 y0 x1 y1 rotation))
    · rw [boxOf_degenerate hdegenerate] at hbox
      cases hbox
    · obtain ⟨box', hbox', hedges⟩ := boxOf_proper hdegenerate
      have heq : box' = box := Except.ok.inj (hbox'.symm.trans hbox)
      subst heq
      have hclamped := Rect.mk.inj hedges
      exact ⟨hclamped.1, hclamped.2.1, hclamped.2.2.1, hclamped.2.2.2, box'.nondegenerate.1,
        box'.nondegenerate.2, box'.inside.1, box'.inside.2.1, box'.inside.2.2.1,
        box'.inside.2.2.2⟩

omit hw hh in
theorem lower_half_is_placed :
    (∃ r : Rect ℚ, Set.image ⇑(turn ^ ((450 : ℤ) / 90) : Equiv.Perm (ℚ × ℚ))
        (Set.image (Rect.ofSheet 600 800) (Set.uIcc (600, 400) (-30, 0))) = r.points ∧
      ((∃ e, toNormalised 600 400 (-30) 0 600 800 450 = .error e) ↔
        snapped r.right ≤ snapped r.left ∨ snapped r.bottom ≤ snapped r.top)) ∧
    (toNormalised 600 400 (-30) 0 600 800 450).map (fun box => (box.x0, box.y0, box.x1, box.y1)) =
      .ok (0, 0, 1 / 2, 1) := by
  constructor
  · obtain ⟨r, -, himage, hraises, -⟩ := conversion_is_flip_rotate_clip (w := 600) (h := 800)
      (by norm_num) (by norm_num) 600 400 (-30) 0 (show (90 : ℤ) ∣ 450 by norm_num)
    exact ⟨r, himage, hraises⟩
  · decide +kernel

end Ragent.BoundingBoxes
