import Mathlib.Data.List.Chain
import Ragent.NextFit

set_option autoImplicit false

/-!
# Greedy cuts

A sequence is cut into groups that have some property. If the property passes on to whatever stands
together inside a group, taking each group as long as it goes needs the fewest groups.
-/
namespace GreedyCuts

variable {β : Type} {P : List β → Prop}

def Hereditary (P : List β → Prop) : Prop := ∀ l l', P l → l' <:+: l → P l'

/-- No group could take the first item of the next one. -/
def Full (P : List β → Prop) (groups : List (List β)) : Prop :=
  groups.IsChain fun g g' => ∀ b ∈ g'.head?, ¬ P (g ++ [b])

theorem full_concat {groups : List (List β)} {g : List β} (h : Full P groups)
    (hlast : ∀ last ∈ groups.getLast?, ∀ b ∈ g.head?, ¬ P (last ++ [b])) :
    Full P (groups ++ [g]) := by
  apply List.isChain_append.mpr
  refine ⟨h, List.isChain_singleton g, fun last hmem g' hg' => ?_⟩
  cases hg'
  exact hlast last hmem

/-- Greedy stays ahead: behind as many groups, it has no more left than anyone else. -/
theorem length_le (hP : Hereditary P) {groups others : List (List β)}
    (hne : ∀ g ∈ groups, g ≠ []) (hfull : Full P groups) (hothers : ∀ g ∈ others, P g)
    (hleft : groups.flatten <:+ others.flatten) : groups.length ≤ others.length := by
  induction others generalizing groups with
  | nil =>
    have hnil : groups.flatten = [] := List.suffix_nil.mp hleft
    cases groups with
    | nil => exact Nat.le_refl 0
    | cons g groups =>
      rw [List.flatten_cons, List.append_eq_nil_iff] at hnil
      exact absurd hnil.1 (hne g List.mem_cons_self)
  | cons other others ih =>
    cases groups with
    | nil => exact Nat.zero_le _
    | cons g groups =>
      have htail : groups.flatten <:+ others.flatten := by
        obtain ⟨before, hbefore⟩ := hleft
        rw [List.flatten_cons, List.flatten_cons, ← List.append_assoc] at hbefore
        rcases List.append_eq_append_iff.mp hbefore with ⟨more, hother, hmore⟩ | ⟨rest, -, hrest⟩
        · cases more with
          | nil => exact ⟨[], hmore⟩
          | cons b more =>
            -- the other group would hold all of `g` and the item behind it
            exfalso
            cases groups with
            | nil => cases hmore
            | cons g' groups =>
              obtain ⟨c, g', rfl⟩ :=
                List.exists_cons_of_ne_nil (hne g' (List.mem_cons_of_mem g List.mem_cons_self))
              obtain ⟨rfl, -⟩ := List.cons.inj hmore
              have hpart : g ++ [c] <:+: other := by
                refine ⟨before, more, ?_⟩
                rw [hother]
                simp only [List.append_assoc, List.singleton_append]
              have hstop := (List.isChain_cons_cons.mp hfull).1 c rfl
              exact hstop (hP other _ (hothers other List.mem_cons_self) hpart)
        · exact ⟨rest, hrest.symm⟩
      rw [List.length_cons, List.length_cons]
      exact Nat.succ_le_succ (ih (fun g' hg' => hne g' (List.mem_cons_of_mem g hg'))
        (List.IsChain.tail hfull) (fun g' hg' => hothers g' (List.mem_cons_of_mem other hg')) htail)

def Within (cost : β → ℤ) (cap : ℤ) (run : List β) : Prop :=
  run.length ≤ 1 ∨ (run.map cost).sum ≤ cap

theorem sum_part_le {cost : β → ℤ} (hcost : ∀ b, 0 ≤ cost b) {run part : List β}
    (h : part <:+: run) : (part.map cost).sum ≤ (run.map cost).sum := by
  obtain ⟨front, back, rfl⟩ := h
  have hnonneg : ∀ l : List β, 0 ≤ (l.map cost).sum := by
    intro l
    induction l with
    | nil => exact Int.le_refl 0
    | cons b l ih =>
      rw [List.map_cons, List.sum_cons]
      exact Int.add_nonneg (hcost b) ih
  have hfront := hnonneg front
  have hback := hnonneg back
  simp only [List.map_append, List.sum_append]
  omega

theorem within_hereditary {cost : β → ℤ} (hcost : ∀ b, 0 ≤ cost b) (cap : ℤ) :
    Hereditary (Within cost cap) := by
  intro run part h hpart
  rcases h with hone | hsum
  · exact .inl (hpart.length_le.trans hone)
  · exact .inr (Int.le_trans (sum_part_le hcost hpart) hsum)

theorem runsFrom_head {cost : β → ℤ} {cap : ℤ} {b : β} {run : List β} (items : List β) :
    ∃ r rest, NextFit.runsFrom cost cap (b :: run) items = (b :: r) :: rest := by
  induction items generalizing run with
  | nil => exact ⟨run, [], rfl⟩
  | cons item items ih =>
    rw [NextFit.runsFrom]
    split_ifs
    · exact ⟨run, _, rfl⟩
    · exact ih

theorem runsFrom_full {cost : β → ℤ} {cap : ℤ} (run items : List β) :
    Full (Within cost cap) (NextFit.runsFrom cost cap run items) := by
  induction items generalizing run with
  | nil =>
    rw [NextFit.runsFrom]
    split_ifs
    · exact List.isChain_nil
    · exact List.isChain_singleton run
  | cons item items ih =>
    rw [NextFit.runsFrom]
    split_ifs with hfull
    · have hrest := ih [item]
      have hhead : ∃ r rest, NextFit.runsFrom cost cap [item] items = (item :: r) :: rest :=
        runsFrom_head items
      obtain ⟨r, rest, heq⟩ := hhead
      rw [heq] at hrest ⊢
      refine List.isChain_cons_cons.mpr ⟨?_, hrest⟩
      rintro b hb hwithin
      cases hb
      rcases hwithin with hone | hsum
      · have hpos := List.length_pos_iff.mpr hfull.1
        rw [List.length_append, List.length_singleton] at hone
        omega
      · rw [List.map_append, List.sum_append, List.map_singleton, List.sum_singleton] at hsum
        omega
    · exact ih (run ++ [item])

/-- Next-fit needs the fewest runs. -/
theorem runs_length_le {cost : β → ℤ} (hcost : ∀ b, 0 ≤ cost b) {cap : ℤ} {others : List (List β)}
    (hothers : ∀ r ∈ others, Within cost cap r) :
    (NextFit.runs cost cap others.flatten).length ≤ others.length := by
  apply length_le (within_hereditary hcost cap) (NextFit.runsFrom_ne_nil cost cap)
    (runsFrom_full [] others.flatten) hothers
  rw [NextFit.runsFrom_flatten]
  exact List.suffix_refl _

end GreedyCuts
