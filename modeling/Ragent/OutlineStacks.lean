import Mathlib.Data.List.DropRight
import Mathlib.Order.Lattice

set_option autoImplicit false

/-!
# Outlines

Items with a level, in order. An item stays open until an item follows whose level is not deeper
than its own. A stack that is cut back to the shallower levels before each push holds the open items.
-/
namespace Ragent.OutlineStacks

variable {α β κ : Type*} [LinearOrder κ] (level : α → κ)

/-- The items that are still open behind the last one. -/
def opened : List α → List α
  | [] => []
  | a :: items => if ∀ b ∈ items, level a < level b then a :: opened items else opened items

def push (stack : List α) (a : α) : List α :=
  (stack.rdropWhile fun b => decide (level a ≤ level b)) ++ [a]

theorem opened_subset (items : List α) : opened level items ⊆ items := by
  induction items with
  | nil => exact List.Subset.refl _
  | cons a items ih =>
    unfold opened
    split
    · exact List.cons_subset_cons a ih
    · exact List.subset_cons_of_subset a ih

theorem opened_pairwise (items : List α) :
    (opened level items).Pairwise fun a b => level a < level b := by
  induction items with
  | nil => exact List.Pairwise.nil
  | cons a items ih =>
    unfold opened
    split
    · next hopen => exact ih.cons fun b hb => hopen b (opened_subset level items hb)
    · exact ih

theorem opened_concat (items : List α) (a : α) : opened level (items ++ [a]) =
    ((opened level items).filter fun b => level b < level a) ++ [a] := by
  induction items with
  | nil => simp [opened]
  | cons b items ih =>
    rw [List.cons_append, opened, opened, ih]
    by_cases hopen : ∀ c ∈ items, level b < level c
    · by_cases ha : level b < level a
      · have hopen' : ∀ c ∈ items ++ [a], level b < level c := by
          intro c hc
          cases List.mem_append.mp hc with
          | inl hc => exact hopen c hc
          | inr hc => exact List.mem_singleton.mp hc ▸ ha
        rw [if_pos hopen, if_pos hopen', List.filter_cons_of_pos (by simpa using ha)]
        rfl
      · have hclosed : ¬ ∀ c ∈ items ++ [a], level b < level c := fun h => ha (h a (by simp))
        rw [if_pos hopen, if_neg hclosed, List.filter_cons_of_neg (by simpa using ha)]
    · have hclosed : ¬ ∀ c ∈ items ++ [a], level b < level c :=
        fun h => hopen fun c hc => h c (List.mem_append_left _ hc)
      rw [if_neg hopen, if_neg hclosed]

theorem rdropWhile_eq_filter {stack : List α} (h : stack.Pairwise fun a b => level a < level b)
    (bound : κ) : (stack.rdropWhile fun b => decide (bound ≤ level b)) =
      stack.filter fun b => level b < bound := by
  induction stack using List.reverseRecOn with
  | nil => rfl
  | append_singleton stack a ih =>
    obtain ⟨hstack, -, hlast⟩ := List.pairwise_append.mp h
    by_cases ha : bound ≤ level a
    · rw [List.rdropWhile_concat_pos _ _ _ (by simpa using ha), ih hstack, List.filter_append,
        List.filter_cons_of_neg (by simpa using ha), List.filter_nil, List.append_nil]
    · have hkept : ∀ b ∈ stack ++ [a], level b < bound := by
        intro b hb
        cases List.mem_append.mp hb with
        | inl hb => exact (hlast b hb a (by simp)).trans (not_le.mp ha)
        | inr hb => exact List.mem_singleton.mp hb ▸ not_le.mp ha
      rw [List.rdropWhile_concat_neg _ _ _ (by simpa using ha),
        List.filter_eq_self.mpr (by simpa using hkept)]

theorem opened_push (items : List α) (a : α) :
    opened level (items ++ [a]) = push level (opened level items) a := by
  rw [opened_concat, push, rdropWhile_eq_filter level (opened_pairwise level items)]

theorem opened_map (f : β → α) (items : List β) :
    opened level (items.map f) = (opened (fun b => level (f b)) items).map f := by
  induction items with
  | nil => rfl
  | cons b items ih =>
    simp only [List.map_cons, opened, List.forall_mem_map, ih]
    split
    · rfl
    · rfl

/-- Open is what no later item has closed. -/
theorem opened_eq_filter {ι : Type*} [LinearOrder ι] {pos : α → ι} {items : List α}
    (h : items.Pairwise fun a b => pos a < pos b) :
    opened level items =
      items.filter fun a => ∀ b ∈ items, pos a < pos b → level a < level b := by
  induction items with
  | nil => rfl
  | cons a items ih =>
    obtain ⟨hfirst, hrest⟩ := List.pairwise_cons.mp h
    have hopen : (∀ b ∈ a :: items, pos a < pos b → level a < level b) ↔
        ∀ b ∈ items, level a < level b := by
      constructor
      · exact fun h b hb => h b (List.mem_cons_of_mem a hb) (hfirst b hb)
      · intro h b hb hlt
        cases List.mem_cons.mp hb with
        | inl heq => exact absurd hlt (heq ▸ lt_irrefl (pos b))
        | inr hb => exact h b hb
    have htail : (items.filter fun b => ∀ c ∈ a :: items, pos b < pos c → level b < level c) =
        items.filter fun b => ∀ c ∈ items, pos b < pos c → level b < level c := by
      apply List.filter_congr
      intro b hb
      have hnot : ¬ pos b < pos a := (hfirst b hb).asymm
      simp [hnot]
    rw [opened, List.filter_cons, htail, ih hrest]
    by_cases hall : ∀ b ∈ items, level a < level b
    · rw [if_pos hall, if_pos (decide_eq_true (hopen.mpr hall))]
    · rw [if_neg hall, if_neg fun h => hall (hopen.mp (of_decide_eq_true h))]

end Ragent.OutlineStacks
