import Mathlib.Data.List.Chain

set_option autoImplicit false

/-!
# Partitions of a range

A half-open range of places, cut into ranges that follow each other.
-/
namespace RangePartitions

def Adjoining (stop : ℕ) : ℕ → List (ℕ × ℕ) → Prop
  | start, [] => start = stop
  | start, r :: rs => r.1 = start ∧ start < r.2 ∧ Adjoining stop r.2 rs

theorem Adjoining.append {start middle stop : ℕ} {rs ts : List (ℕ × ℕ)}
    (hr : Adjoining middle start rs) (ht : Adjoining stop middle ts) :
    Adjoining stop start (rs ++ ts) := by
  induction rs generalizing start with
  | nil => exact (show start = middle from hr) ▸ ht
  | cons r rs ih =>
    rcases hr with ⟨hfirst, hlt, hrest⟩
    exact ⟨hfirst, hlt, ih hrest⟩

theorem Adjoining.flatMap {start stop : ℕ} {rs : List (ℕ × ℕ)} {f : ℕ × ℕ → List (ℕ × ℕ)}
    (hf : ∀ r : ℕ × ℕ, r.1 < r.2 → Adjoining r.2 r.1 (f r)) (h : Adjoining stop start rs) :
    Adjoining stop start (rs.flatMap f) := by
  induction rs generalizing start with
  | nil => exact h
  | cons r rs ih =>
    rcases h with ⟨rfl, hlt, hrest⟩
    rw [List.flatMap_cons]
    exact (hf r hlt).append (ih hrest)

theorem Adjoining.le {start stop : ℕ} {rs : List (ℕ × ℕ)} (h : Adjoining stop start rs) :
    start ≤ stop := by
  induction rs generalizing start with
  | nil => exact Nat.le_of_eq h
  | cons r rs ih =>
    rcases h with ⟨-, hlt, hrest⟩
    exact hlt.le.trans (ih hrest)

theorem Adjoining.inside {start stop : ℕ} {rs : List (ℕ × ℕ)} (h : Adjoining stop start rs) :
    ∀ r ∈ rs, start ≤ r.1 ∧ r.1 < r.2 ∧ r.2 ≤ stop := by
  induction rs generalizing start with
  | nil => simp
  | cons r rs ih =>
    rcases h with ⟨rfl, hlt, hrest⟩
    intro t ht
    cases List.mem_cons.mp ht with
    | inl heq =>
      subst heq
      exact ⟨le_refl _, hlt, hrest.le⟩
    | inr ht =>
      have hinside := ih hrest t ht
      exact ⟨hlt.le.trans hinside.1, hinside.2⟩

theorem Adjoining.eq_singleton {start stop : ℕ} {rs : List (ℕ × ℕ)} (h : Adjoining stop start rs)
    (hone : rs.length ≤ 1) (hlt : start < stop) : rs = [(start, stop)] := by
  match rs, h, hone with
  | [], h, _ => exact absurd h hlt.ne
  | [r], ⟨hfirst, _, hlast⟩, _ => rw [← hfirst, ← (show r.2 = stop from hlast)]

theorem Adjoining.covers {start stop : ℕ} {rs : List (ℕ × ℕ)} (h : Adjoining stop start rs)
    (k : ℕ) : (∃ r ∈ rs, r.1 ≤ k ∧ k < r.2) ↔ start ≤ k ∧ k < stop := by
  constructor
  · intro hk
    rcases hk with ⟨r, hr, hle, hlt⟩
    have hinside := h.inside r hr
    omega
  · intro hk
    induction rs generalizing start with
    | nil =>
      have heq : start = stop := h
      omega
    | cons r rs ih =>
      rcases h with ⟨hfirst, hlt, hrest⟩
      by_cases hk' : k < r.2
      · exact ⟨r, List.mem_cons_self, by omega, hk'⟩
      · have hmem := ih hrest ⟨by omega, hk.2⟩
        rcases hmem with ⟨t, ht, hin⟩
        exact ⟨t, List.mem_cons_of_mem r ht, hin⟩

/-- Ranges that are not empty, in order and adjacent, and hold exactly the places of a range. -/
structure Partition (start stop : ℕ) (rs : List (ℕ × ℕ)) : Prop where
  nonempty : ∀ r ∈ rs, r.1 < r.2
  first : rs.head?.map (·.1) = some start
  adjacent : rs.IsChain fun r r' => r.2 = r'.1
  last : rs.getLast?.map (·.2) = some stop
  covers : ∀ k, (∃ r ∈ rs, r.1 ≤ k ∧ k < r.2) ↔ start ≤ k ∧ k < stop

theorem Adjoining.isChain {start stop : ℕ} {rs : List (ℕ × ℕ)} (h : Adjoining stop start rs) :
    rs.IsChain fun r r' => r.2 = r'.1 := by
  induction rs generalizing start with
  | nil => exact List.IsChain.nil
  | cons r rs ih =>
    rcases h with ⟨-, -, hrest⟩
    cases rs with
    | nil => exact List.IsChain.singleton r
    | cons t rs => exact List.IsChain.cons_cons hrest.1.symm (ih hrest)

theorem Adjoining.getLast {start stop : ℕ} {rs : List (ℕ × ℕ)} (h : Adjoining stop start rs)
    (hne : rs ≠ []) : rs.getLast?.map (·.2) = some stop := by
  induction rs generalizing start with
  | nil => exact absurd rfl hne
  | cons r rs ih =>
    rcases h with ⟨-, -, hrest⟩
    cases rs with
    | nil => exact congrArg some hrest
    | cons t rs =>
      rw [List.getLast?_cons_cons]
      exact ih hrest (List.cons_ne_nil t rs)

theorem Adjoining.partition {start stop : ℕ} {rs : List (ℕ × ℕ)} (h : Adjoining stop start rs)
    (hlt : start < stop) : Partition start stop rs := by
  cases rs with
  | nil => exact absurd h hlt.ne
  | cons r rs =>
    exact
      { nonempty := fun t ht => (h.inside t ht).2.1
        first := congrArg some h.1
        adjacent := h.isChain
        last := h.getLast (List.cons_ne_nil r rs)
        covers := h.covers }

end RangePartitions
