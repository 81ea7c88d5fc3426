import Mathlib.Algebra.BigOperators.Group.List.Basic
import Mathlib.Algebra.Ring.Int.Defs

set_option autoImplicit false

/-!
# Next-fit packing

Items in a fixed order are put into runs, each item into the open run while the costs there stay
within a cap.
-/
namespace NextFit

variable {β γ : Type} (cost : β → ℤ) (cap : ℤ)

/-- The runs of `items`, `run` being the open one. -/
def runsFrom (run : List β) : List β → List (List β)
  | [] => if run.isEmpty then [] else [run]
  | item :: items =>
    if run ≠ [] ∧ cap < (run.map cost).sum + cost item then run :: runsFrom [item] items
    else runsFrom (run ++ [item]) items

def runs (items : List β) : List (List β) := runsFrom cost cap [] items

theorem runsFrom_flatten (run items : List β) :
    (runsFrom cost cap run items).flatten = run ++ items := by
  induction items generalizing run with
  | nil =>
    rw [runsFrom]
    split_ifs with hempty
    · simp [List.isEmpty_iff.mp hempty]
    · simp
  | cons item items ih =>
    rw [runsFrom]
    split_ifs
    · simp [ih]
    · simp [ih]

theorem runs_flatten (items : List β) : (runs cost cap items).flatten = items :=
  runsFrom_flatten cost cap [] items

theorem runsFrom_ne_nil {run items : List β} : ∀ r ∈ runsFrom cost cap run items, r ≠ [] := by
  induction items generalizing run with
  | nil =>
    rw [runsFrom]
    split_ifs with hempty
    · simp
    · simpa using hempty
  | cons item items ih =>
    rw [runsFrom]
    split_ifs with hfull
    · intro r hr
      rcases List.mem_cons.mp hr with rfl | hr
      · exact hfull.1
      · exact ih r hr
    · exact ih

theorem runsFrom_within {run items : List β} (h : run.length ≤ 1 ∨ (run.map cost).sum ≤ cap) :
    ∀ r ∈ runsFrom cost cap run items, r.length ≤ 1 ∨ (r.map cost).sum ≤ cap := by
  induction items generalizing run with
  | nil =>
    rw [runsFrom]
    split_ifs
    · simp
    · simpa using h
  | cons item items ih =>
    rw [runsFrom]
    split_ifs with hfull
    · intro r hr
      rcases List.mem_cons.mp hr with rfl | hr
      · exact h
      · exact ih (Or.inl (by simp)) r hr
    · apply ih
      rw [not_and_or] at hfull
      rcases hfull with hempty | hroom
      · rw [not_not.mp hempty]
        exact Or.inl (by simp)
      · apply Or.inr
        rw [List.map_append, List.sum_append, List.map_singleton, List.sum_singleton]
        exact Int.not_lt.mp hroom

theorem runs_within {items r : List β} (hr : r ∈ runs cost cap items) (hlen : 2 ≤ r.length) :
    (r.map cost).sum ≤ cap := by
  have hone : ([] : List β).length ≤ 1 := Nat.zero_le 1
  apply (runsFrom_within cost cap (Or.inl hone) r hr).resolve_left
  omega

theorem runsFrom_map (f : γ → β) (run items : List γ) :
    runsFrom cost cap (run.map f) (items.map f) =
      (runsFrom (fun x => cost (f x)) cap run items).map (List.map f) := by
  induction items generalizing run with
  | nil =>
    rw [List.map_nil, runsFrom, runsFrom, List.isEmpty_map]
    split_ifs <;> rfl
  | cons item items ih =>
    have hopen := ih (run ++ [item])
    have hnew := ih [item]
    rw [List.map_append] at hopen
    rw [List.map_cons, runsFrom, runsFrom, List.map_map]
    have hiff : (run.map f ≠ [] ∧ cap < (run.map (cost ∘ f)).sum + cost (f item)) ↔
        (run ≠ [] ∧ cap < (run.map fun x => cost (f x)).sum + cost (f item)) := by
      rw [Ne, List.map_eq_nil_iff]
      rfl
    by_cases hfull : run ≠ [] ∧ cap < (run.map fun x => cost (f x)).sum + cost (f item)
    · rw [if_pos hfull, if_pos (hiff.mpr hfull), List.map_cons]
      exact congrArg _ hnew
    · rw [if_neg hfull, if_neg (fun h => hfull (hiff.mp h))]
      exact hopen

theorem runs_map (f : γ → β) (items : List γ) :
    runs cost cap (items.map f) = (runs (fun x => cost (f x)) cap items).map (List.map f) :=
  runsFrom_map cost cap f [] items

end NextFit
