import Mathlib.Data.List.Sort
import Mathlib.Tactic.Linarith
import Ragent.SourceTypes

set_option autoImplicit false

/-!
# Merged boxes

`union`, `iou` and `merge_overlapping` of `ragent/ingest/bbox.py`, in exact arithmetic.
-/
namespace Ragent.MergedBoxes
open SourceTypes

def area (b : BBox) : ℚ := (b.x1 - b.x0) * (b.y1 - b.y0)

structure Contains (a b : BBox) : Prop where
  x0 : a.x0 ≤ b.x0
  y0 : a.y0 ≤ b.y0
  x1 : b.x1 ≤ a.x1
  y1 : b.y1 ≤ a.y1

theorem Contains.refl (a : BBox) : Contains a a := ⟨le_refl _, le_refl _, le_refl _, le_refl _⟩

theorem Contains.trans {a b c : BBox} (h : Contains a b) (h' : Contains b c) : Contains a c :=
  ⟨h.x0.trans h'.x0, h.y0.trans h'.y0, h'.x1.trans h.x1, h'.y1.trans h.y1⟩

theorem Contains.antisymm {a b : BBox} (h : Contains a b) (h' : Contains b a) : a = b := by
  have hx0 := le_antisymm h.x0 h'.x0
  have hy0 := le_antisymm h.y0 h'.y0
  have hx1 := le_antisymm h'.x1 h.x1
  have hy1 := le_antisymm h'.y1 h.y1
  cases a
  cases b
  simp only at hx0 hy0 hx1 hy1
  subst hx0 hy0 hx1 hy1
  rfl

def cover (a b : BBox) : BBox where
  x0 := min a.x0 b.x0
  y0 := min a.y0 b.y0
  x1 := max a.x1 b.x1
  y1 := max a.y1 b.y1
  nondegenerate := ⟨(min_le_left _ _).trans_lt (a.nondegenerate.1.trans_le (le_max_left _ _)),
    (min_le_left _ _).trans_lt (a.nondegenerate.2.trans_le (le_max_left _ _))⟩
  inside := ⟨le_min a.inside.1 b.inside.1, le_min a.inside.2.1 b.inside.2.1,
    max_le a.inside.2.2.1 b.inside.2.2.1, max_le a.inside.2.2.2 b.inside.2.2.2⟩

theorem contains_cover_iff {a b c : BBox} : Contains c (cover a b) ↔ Contains c a ∧ Contains c b := by
  constructor
  · intro h
    have hleft : Contains (cover a b) a :=
      ⟨min_le_left _ _, min_le_left _ _, le_max_left _ _, le_max_left _ _⟩
    have hright : Contains (cover a b) b :=
      ⟨min_le_right _ _, min_le_right _ _, le_max_right _ _, le_max_right _ _⟩
    exact ⟨h.trans hleft, h.trans hright⟩
  · intro h
    exact ⟨le_min h.1.x0 h.2.x0, le_min h.1.y0 h.2.y0, max_le h.1.x1 h.2.x1, max_le h.1.y1 h.2.y1⟩

/-- `union` of a box and others: the minimum and maximum of every coordinate. -/
def unionOf (b : BBox) (others : List BBox) : BBox := others.foldl cover b

/-- The error is the text of a `ValueError`. -/
def union : List BBox → Except String BBox
  | [] => .error "union of no boxes is undefined"
  | b :: others => .ok (unionOf b others)

theorem contains_unionOf_iff {b c : BBox} {others : List BBox} :
    Contains c (unionOf b others) ↔ ∀ a ∈ b :: others, Contains c a := by
  unfold unionOf
  induction others generalizing b with
  | nil => simp
  | cons other others ih =>
    rw [List.foldl_cons, ih]
    simp only [List.forall_mem_cons, contains_cover_iff, and_assoc]

def iou (a b : BBox) : ℚ :=
  let ix0 := max a.x0 b.x0
  let iy0 := max a.y0 b.y0
  let ix1 := min a.x1 b.x1
  let iy1 := min a.y1 b.y1
  if ix1 ≤ ix0 ∨ iy1 ≤ iy0 then 0
  else
    let intersection := (ix1 - ix0) * (iy1 - iy0)
    intersection / (area a + area b - intersection)

theorem iou_comm (a b : BBox) : iou a b = iou b a := by
  unfold iou
  simp only [max_comm b.x0, max_comm b.y0, min_comm b.x1, min_comm b.y1, add_comm (area b)]

/-- `while remaining`: the first box and what overlaps it heavily make way for their union. -/
def mergeFrom (threshold : ℚ) : List BBox → List BBox
  | [] => []
  | current :: remaining =>
    let group := remaining.filter fun other => threshold ≤ iou current other
    let rest := remaining.filter fun other => ¬ threshold ≤ iou current other
    (if 1 < (current :: group).length then unionOf current group else current) ::
      mergeFrom threshold rest
termination_by boxes => boxes.length
decreasing_by
  rw [List.length_unattach, List.length_cons]
  apply Nat.lt_succ_of_le
  exact (List.length_filter_le _ _).trans (Nat.le_of_eq List.length_attach)

def mergeOverlapping (boxes : List BBox) (threshold : ℚ := 6 / 10) : List BBox :=
  mergeFrom threshold (boxes.insertionSort fun a b => area b ≤ area a)

/-- The boxes in groups, each under a leader that is as large as any of them and overlaps them all
    heavily, but no box of a later group. -/
structure Grouping (threshold : ℚ) (boxes : List BBox) (groups : List (BBox × List BBox)) : Prop where
  members : (groups.flatMap fun g => g.1 :: g.2).Perm boxes
  largest : ∀ g ∈ groups, ∀ b ∈ g.2, area b ≤ area g.1
  close : ∀ g ∈ groups, ∀ b ∈ g.2, threshold ≤ iou g.1 b
  apart : groups.Pairwise fun g h => ∀ b ∈ h.1 :: h.2, iou g.1 b < threshold

def unions (groups : List (BBox × List BBox)) : List BBox := groups.map fun g => unionOf g.1 g.2

theorem mergeFrom_cons (threshold : ℚ) (current : BBox) (remaining : List BBox) :
    mergeFrom threshold (current :: remaining) =
      unionOf current (remaining.filter fun other => threshold ≤ iou current other) ::
        mergeFrom threshold (remaining.filter fun other => ¬ threshold ≤ iou current other) := by
  rw [mergeFrom]
  congr 1
  cases remaining.filter fun other => decide (threshold ≤ iou current other) with
  | nil => rfl
  | cons other others => exact if_pos (by simp)

theorem mergeFrom_groups (threshold : ℚ) (boxes : List BBox)
    (hsorted : boxes.Pairwise fun a b => area b ≤ area a) :
    ∃ groups, Grouping threshold boxes groups ∧ mergeFrom threshold boxes = unions groups := by
  induction hn : boxes.length using Nat.strong_induction_on generalizing boxes with
  | _ n ih =>
    cases boxes with
    | nil =>
      refine ⟨[], ⟨List.Perm.refl _, by simp, by simp, List.Pairwise.nil⟩, ?_⟩
      rw [mergeFrom]
      rfl
    | cons current remaining =>
      rw [List.pairwise_cons] at hsorted
      have hshorter : (remaining.filter fun other => ¬ threshold ≤ iou current other).length < n := by
        rw [← hn, List.length_cons]
        exact Nat.lt_succ_of_le (List.length_filter_le _ _)
      rcases ih _ hshorter _ (hsorted.2.sublist List.filter_sublist) rfl with
        ⟨groups, hgroups, hmerge⟩
      refine ⟨(current, remaining.filter fun other => threshold ≤ iou current other) :: groups,
        ⟨?_, ?_, ?_, ?_⟩, ?_⟩
      · have hsplit := List.filter_append_perm (fun other => decide (threshold ≤ iou current other))
          remaining
        simp only [← decide_not] at hsplit
        rw [List.flatMap_cons, List.cons_append]
        apply List.Perm.cons
        exact (hgroups.members.append_left _).trans hsplit
      · rw [List.forall_mem_cons]
        refine ⟨?_, hgroups.largest⟩
        intro b hb
        exact hsorted.1 b (List.mem_filter.mp hb).1
      · rw [List.forall_mem_cons]
        refine ⟨?_, hgroups.close⟩
        intro b hb
        exact of_decide_eq_true (List.mem_filter.mp hb).2
      · rw [List.pairwise_cons]
        refine ⟨?_, hgroups.apart⟩
        intro g hg b hb
        have hrest := hgroups.members.mem_iff.mp (List.mem_flatMap.mpr ⟨g, hg, hb⟩)
        exact not_le.mp (of_decide_eq_true (List.mem_filter.mp hrest).2)
      · rw [mergeFrom_cons, hmerge]
        rfl

section
variable {threshold : ℚ} {boxes : List BBox} {groups : List (BBox × List BBox)}

theorem mergeOverlapping_groups (boxes : List BBox) (threshold : ℚ) :
    ∃ groups, Grouping threshold boxes groups ∧
      mergeOverlapping boxes threshold = unions groups := by
  have hsorted : (boxes.insertionSort fun a b => area b ≤ area a).Pairwise
      fun a b => area b ≤ area a := by
    have htotal : Std.Total fun a b : BBox => area b ≤ area a :=
      ⟨fun a b => le_total (area b) (area a)⟩
    have htrans : IsTrans BBox fun a b => area b ≤ area a := ⟨fun _ _ _ h h' => h'.trans h⟩
    exact List.pairwise_insertionSort _ boxes
  rcases mergeFrom_groups threshold _ hsorted with ⟨groups, hgroups, hmerge⟩
  have hperm := hgroups.members.trans (List.perm_insertionSort _ boxes)
  exact ⟨groups, { hgroups with members := hperm }, hmerge⟩

theorem Grouping.contained (h : Grouping threshold boxes groups) :
    ∀ b ∈ boxes, ∃ u ∈ unions groups, Contains u b := by
  intro b hb
  rcases List.mem_flatMap.mp (h.members.mem_iff.mpr hb) with ⟨g, hg, hmem⟩
  refine ⟨unionOf g.1 g.2, List.mem_map_of_mem hg, ?_⟩
  exact contains_unionOf_iff.mp (Contains.refl _) b hmem

theorem unionOf_eq {b : BBox} {others : List BBox} (h : ∀ a ∈ others, Contains b a) :
    unionOf b others = b := by
  apply Contains.antisymm
  · exact contains_unionOf_iff.mp (Contains.refl _) b List.mem_cons_self
  · apply contains_unionOf_iff.mpr
    rw [List.forall_mem_cons]
    exact ⟨Contains.refl b, h⟩

variable (threshold) in
def Separated (boxes : List BBox) : Prop := boxes.Pairwise fun a b => iou a b < threshold

theorem Separated.perm {boxes' : List BBox} (h : boxes.Perm boxes') :
    Separated threshold boxes ↔ Separated threshold boxes' := by
  apply h.pairwise_iff
  intro a b hab
  rw [iou_comm]
  exact hab

theorem Grouping.separated_leaders (h : Grouping threshold boxes groups) :
    Separated threshold (groups.map (·.1)) := by
  apply List.pairwise_map.mpr
  exact h.apart.imp fun hapart => hapart _ List.mem_cons_self

theorem Grouping.separated (h : Grouping threshold boxes groups)
    (hinside : ∀ g ∈ groups, ∀ b ∈ g.2, Contains g.1 b) : Separated threshold (unions groups) := by
  have heq : unions groups = groups.map (·.1) :=
    List.map_congr_left fun g hg => unionOf_eq (hinside g hg)
  rw [heq]
  exact h.separated_leaders

theorem Grouping.leaders_perm (h : Grouping threshold boxes groups)
    (hsingle : ∀ g ∈ groups, g.2 = []) : (groups.map (·.1)).Perm boxes := by
  have hflat : (groups.flatMap fun g => g.1 :: g.2) = groups.map (·.1) := by
    rw [List.map_eq_flatMap]
    apply List.flatMap_congr
    intro g hg
    rw [hsingle g hg]
  rw [← hflat]
  exact h.members

theorem followers_eq_nil (h : (groups.flatMap fun g => g.1 :: g.2).length ≤ groups.length) :
    ∀ g ∈ groups, g.2 = [] := by
  have hcount : ∀ gs : List (BBox × List BBox),
      gs.length ≤ (gs.flatMap fun g => g.1 :: g.2).length := by
    intro gs
    induction gs with
    | nil => exact Nat.zero_le _
    | cons g gs ih =>
      rw [List.flatMap_cons, List.length_append, List.length_cons, List.length_cons]
      omega
  induction groups with
  | nil => simp
  | cons g groups ih =>
    have hrest := hcount groups
    rw [List.flatMap_cons, List.length_append, List.length_cons, List.length_cons] at h
    rw [List.forall_mem_cons]
    exact ⟨List.length_eq_zero_iff.mp (by omega), ih (by omega)⟩

/-- Merging keeps a list as it is, up to order, exactly if no two of its boxes overlap heavily. -/
theorem merge_perm_iff (boxes : List BBox) (threshold : ℚ) :
    (mergeOverlapping boxes threshold).Perm boxes ↔ Separated threshold boxes := by
  rcases mergeOverlapping_groups boxes threshold with ⟨groups, hgroups, hmerge⟩
  have hleaders : (∀ g ∈ groups, g.2 = []) → unions groups = groups.map (·.1) := by
    intro hsingle
    apply List.map_congr_left
    intro g hg
    rw [hsingle g hg]
    rfl
  rw [hmerge]
  constructor
  · intro hperm
    have hsingle : ∀ g ∈ groups, g.2 = [] := by
      apply followers_eq_nil
      rw [hgroups.members.length_eq, ← hperm.length_eq]
      exact Nat.le_of_eq (List.length_map _)
    exact (Separated.perm (hgroups.leaders_perm hsingle)).mp hgroups.separated_leaders
  · intro hseparated
    have hsingle : ∀ g ∈ groups, g.2 = [] := by
      intro g hg
      have hmembers := (Separated.perm hgroups.members).mpr hseparated
      have hgroup := (List.pairwise_flatMap.mp hmembers).1 g hg
      rw [List.eq_nil_iff_forall_not_mem]
      intro b hb
      exact absurd (hgroups.close g hg b hb) (not_le.mpr ((List.pairwise_cons.mp hgroup).1 b hb))
    rw [hleaders hsingle]
    exact hgroups.leaders_perm hsingle

/-- The boxes come in groups under leaders that do not overlap heavily, and a group gives way to the
    smallest box around it. Another pass changes nothing exactly if no two of the results overlap
    heavily, as is the case where no group reaches beyond its leader. -/
theorem merging_groups_the_boxes (boxes : List BBox) (threshold : ℚ) :
    ∃ groups, Grouping threshold boxes groups ∧
      mergeOverlapping boxes threshold = unions groups ∧
      (∀ b ∈ boxes, ∃ u ∈ mergeOverlapping boxes threshold, Contains u b) ∧
      ((∀ g ∈ groups, ∀ b ∈ g.2, Contains g.1 b) →
        Separated threshold (mergeOverlapping boxes threshold)) ∧
      ((mergeOverlapping (mergeOverlapping boxes threshold) threshold).Perm
          (mergeOverlapping boxes threshold) ↔
        Separated threshold (mergeOverlapping boxes threshold)) := by
  rcases mergeOverlapping_groups boxes threshold with ⟨groups, hgroups, hmerge⟩
  refine ⟨groups, hgroups, hmerge, ?_, ?_, merge_perm_iff _ threshold⟩
  · rw [hmerge]
    exact hgroups.contained
  · rw [hmerge]
    exact hgroups.separated

end

def column (x0 x1 : ℚ) (h : x0 < x1 ∧ 0 ≤ x0 ∧ x1 ≤ 1) : BBox where
  x0 := x0
  y0 := 0
  x1 := x1
  y1 := 1
  nondegenerate := ⟨h.1, zero_lt_one⟩
  inside := ⟨h.2.1, le_refl 0, h.2.2, le_refl 1⟩

def left : BBox := column 0 (6 / 10) (by norm_num)

def middle : BBox := column (2 / 10) (75 / 100) (by norm_num)

def right : BBox := column (25 / 100) (8 / 10) (by norm_num)

theorem merged_columns :
    mergeOverlapping [left, middle, right] (1 / 2) = [cover left middle, right] := by
  have hsorted : [left, middle, right].insertionSort (fun a b => area b ≤ area a) =
      [left, middle, right] := by
    apply List.Pairwise.insertionSort_eq
    simp [left, middle, right, column, area]
    norm_num
  have hclose : (1 / 2 : ℚ) ≤ iou left middle := by
    norm_num [iou, left, middle, column, area]
  have hfar : ¬ (1 / 2 : ℚ) ≤ iou left right := by
    norm_num [iou, left, right, column, area]
  unfold mergeOverlapping
  rw [hsorted, mergeFrom_cons, List.filter_cons_of_pos (by simpa using hclose),
    List.filter_cons_of_neg (by simpa using hfar), List.filter_cons_of_neg (by simpa using hclose),
    List.filter_cons_of_pos (by simpa using hfar)]
  simp [mergeFrom_cons, mergeFrom, unionOf]

/-- The middle column is merged into the left one, whose union then overlaps the right one. -/
theorem merged_columns_overlap :
    ¬ ∀ (boxes : List BBox) (threshold : ℚ), 0 < threshold → threshold ≤ 1 →
      Separated threshold (mergeOverlapping boxes threshold) := by
  intro h
  have hcolumns := h [left, middle, right] (1 / 2) (by norm_num) (by norm_num)
  rw [merged_columns] at hcolumns
  have hoverlap : (1 / 2 : ℚ) ≤ iou (cover left middle) right := by
    norm_num [iou, cover, left, middle, right, column, area]
  exact absurd hoverlap (not_le.mpr ((List.pairwise_cons.mp hcolumns).1 right List.mem_cons_self))

end Ragent.MergedBoxes
