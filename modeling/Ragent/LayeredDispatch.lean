import Mathlib.Data.Finset.Basic
import Mathlib.Logic.Function.Basic

set_option autoImplicit false

/-!
# Dispatching a layered graph

A job is dispatched once everything it depends on has succeeded, in two moves: whoever completes the
last dependency reserves the job, and announces it later. Two completions must not reserve the same
job in between. In a layered graph, where a job depends on all of the layer before it, they cannot:
the completion that frees a job finds every other job done or untouched.
-/
namespace Ragent.LayeredDispatch

structure Layered (ι : Type*) where
  members : Finset ι
  deps : ι → Finset ι
  rank : ι → ℕ
  lower : ∀ τ ∈ members, ∀ σ ∈ deps τ, σ ∈ members ∧ rank σ < rank τ
  below : ∀ τ ∈ members, ∀ σ ∈ members, rank σ + 1 = rank τ → σ ∈ deps τ
  filled : ∀ τ ∈ members, ∀ n, n + 1 = rank τ → ∃ σ ∈ members, rank σ = n

/-- How far a job has come. -/
inductive Mode
  | idle
  | reserved
  | owed
  /-- dispatched from outside, without a record -/
  | entered
  | waiting
  | running
  | postponed
  | succeeded
  | failed
  deriving DecidableEq, Repr

def Mode.busy : Mode → Bool
  | .owed | .entered | .waiting | .running | .postponed => true
  | .idle | .reserved | .succeeded | .failed => false

variable {ι : Type*}

abbrev Board (ι : Type*) := ι → Mode

def Frees (L : Layered ι) (b : Board ι) (σ τ : ι) : Prop :=
  τ ∈ L.members ∧ b τ = .idle ∧ ∀ ρ ∈ L.deps τ, ρ = σ ∨ b ρ = .succeeded

inductive Step [DecidableEq ι] (L : Layered ι) (b : Board ι) : Board ι → Prop
  | begin {σ : ι} (h : b σ = .entered ∨ b σ = .waiting) : Step L b (Function.update b σ .running)
  | complete {σ : ι} {b' : Board ι} (h : b σ = .running) (hown : b' σ = .succeeded)
      (hfreed : ∀ τ ≠ σ, Frees L b σ τ → b' τ = .reserved)
      (hkept : ∀ τ ≠ σ, ¬ Frees L b σ τ → b' τ = b τ) : Step L b b'
  | announce {b' : Board ι} (hreserved : ∀ τ, b τ = .reserved → b' τ = .owed)
      (hkept : ∀ τ, b τ ≠ .reserved → b' τ = b τ) : Step L b b'
  | publish {σ : ι} (h : b σ = .owed) : Step L b (Function.update b σ .waiting)
  | postpone {σ : ι} (h : b σ = .running) : Step L b (Function.update b σ .postponed)
  | retry {σ : ι} (h : b σ = .postponed) : Step L b (Function.update b σ .waiting)
  | fail {σ : ι} (h : b σ = .running) : Step L b (Function.update b σ .failed)

/-- While a job is reserved and not announced, nobody is at work. -/
structure Sound (L : Layered ι) (b : Board ι) : Prop where
  outside : ∀ τ, τ ∉ L.members → b τ = .idle
  closed : ∀ τ, b τ ≠ .idle → ∀ σ ∈ L.deps τ, b σ = .succeeded
  progress : ∀ τ ∈ L.members, (∀ σ ∈ L.deps τ, b σ = .succeeded) → b τ ≠ .idle
  quiet : ∀ σ, b σ = .reserved → ∀ τ, (b τ).busy = false
  first : ∀ σ, b σ = .entered → ∀ τ ≠ σ, b τ = .idle

variable {L : Layered ι} {b b' : Board ι} {σ τ κ : ι}

namespace Sound

theorem mem (h : Sound L b) (hτ : b τ ≠ .idle) : τ ∈ L.members := by
  by_contra hout
  exact hτ (h.outside τ hout)

/-- Under a job that is not idle every layer is done. -/
theorem below_succeeded (h : Sound L b) (hκ : κ ∈ L.members) (hτ : b τ ≠ .idle)
    (hrank : L.rank κ < L.rank τ) : b κ = .succeeded := by
  obtain ⟨n, hn⟩ : ∃ n, n = L.rank τ := ⟨_, rfl⟩
  induction n generalizing τ with
  | zero => omega
  | succ n ih =>
    have hmem := h.mem hτ
    by_cases hlast : L.rank κ = n
    · exact h.closed τ hτ κ (L.below τ hmem κ hκ (by omega))
    · obtain ⟨ρ, hρ, hρrank⟩ := L.filled τ hmem n hn
      have hdone := h.closed τ hτ ρ (L.below τ hmem ρ hρ (by omega))
      apply ih (τ := ρ)
      · simp [hdone]
      · omega
      · exact hρrank.symm

/-- The completion that frees a job finds nobody else at work. -/
theorem no_other_busy (h : Sound L b) (hσ : b σ = .running) (hκ : Frees L b σ κ) (hne : τ ≠ σ) :
    (b τ).busy = false := by
  by_contra hbusy
  obtain ⟨hmem, hidle, hdeps⟩ := hκ
  have hσmem : σ ∈ L.members := h.mem (by simp [hσ])
  have hτidle : b τ ≠ .idle := fun h => hbusy (by simp [h, Mode.busy])
  have hτdone : b τ ≠ .succeeded := fun h => hbusy (by simp [h, Mode.busy])
  have hσdep : σ ∈ L.deps κ := by
    by_contra hnot
    refine h.progress κ hmem (fun ρ hρ => ?_) hidle
    exact (hdeps ρ hρ).resolve_left fun heq => hnot (heq ▸ hρ)
  have hlower := (L.lower κ hmem σ hσdep).2
  have hsame : L.rank τ = L.rank σ := by
    by_contra hdiff
    rcases Nat.lt_or_gt_of_ne hdiff with hlt | hgt
    · exact hτdone (h.below_succeeded (h.mem hτidle) (by simp [hσ]) hlt)
    · have := h.below_succeeded hσmem hτidle hgt
      simp [hσ] at this
  obtain ⟨n, hn⟩ : ∃ n, n + 1 = L.rank κ := ⟨L.rank κ - 1, by omega⟩
  by_cases hlast : L.rank σ = n
  · -- `τ` is in the layer under `κ` too
    rcases hdeps τ (L.below κ hmem τ (h.mem hτidle) (by omega)) with heq | hdone
    · exact hne heq
    · exact hτdone hdone
  · -- a whole layer lies between `σ` and `κ`
    obtain ⟨ρ, hρ, hρrank⟩ := L.filled κ hmem n hn
    rcases hdeps ρ (L.below κ hmem ρ hρ (by omega)) with heq | hdone
    · exact hlast (heq ▸ hρrank)
    · have := h.below_succeeded hσmem (τ := ρ) (by simp [hdone]) (by omega)
      simp [hσ] at this

theorem announce (h : Sound L b) (hreserved : ∀ τ, b τ = .reserved → b' τ = .owed)
    (hkept : ∀ τ, b τ ≠ .reserved → b' τ = b τ) : Sound L b' := by
  have hsame : ∀ {m : Mode}, m ≠ .reserved → m ≠ .owed → ∀ τ, b' τ = m ↔ b τ = m := by
    intro m hm hm' τ
    by_cases hτ : b τ = .reserved
    · simp [hreserved τ hτ, hτ, hm.symm, hm'.symm]
    · rw [hkept τ hτ]
  have hidle := hsame (m := .idle) (by decide) (by decide)
  have hdone := hsame (m := .succeeded) (by decide) (by decide)
  constructor
  · intro τ hτ
    exact (hidle τ).mpr (h.outside τ hτ)
  · intro τ hτ ρ hρ
    exact (hdone ρ).mpr (h.closed τ (fun heq => hτ ((hidle τ).mpr heq)) ρ hρ)
  · intro τ hτ hdeps heq
    exact h.progress τ hτ (fun ρ hρ => (hdone ρ).mp (hdeps ρ hρ)) ((hidle τ).mp heq)
  · intro κ hκ
    by_cases hκ' : b κ = .reserved
    · simp [hreserved κ hκ'] at hκ
    · exact absurd (hkept κ hκ' ▸ hκ) hκ'
  · intro κ hκ τ hne
    have hκ' := (hsame (m := .entered) (by decide) (by decide) κ).mp hκ
    exact (hidle τ).mpr (h.first κ hκ' τ hne)

variable [DecidableEq ι]

theorem update (h : Sound L b) {m : Mode} (hbusy : (b σ).busy = true)
    (hm : m.busy = true ∨ m = .failed) (hentered : m ≠ .entered) :
    Sound L (Function.update b σ m) := by
  have hσidle : b σ ≠ .idle := fun h => by simp [h, Mode.busy] at hbusy
  have hσdone : b σ ≠ .succeeded := fun h => by simp [h, Mode.busy] at hbusy
  have hmidle : m ≠ .idle := by rintro rfl; simp [Mode.busy] at hm
  have hmdone : m ≠ .succeeded := by rintro rfl; simp [Mode.busy] at hm
  have hmreserved : m ≠ .reserved := by rintro rfl; simp [Mode.busy] at hm
  have hdone : ∀ ρ, Function.update b σ m ρ = .succeeded ↔ b ρ = .succeeded := by
    intro ρ
    by_cases hρ : ρ = σ
    · subst hρ
      simp [hmdone, hσdone]
    · rw [Function.update_of_ne hρ]
  have hidle : ∀ ρ, Function.update b σ m ρ = .idle ↔ b ρ = .idle := by
    intro ρ
    by_cases hρ : ρ = σ
    · subst hρ
      simp [hmidle, hσidle]
    · rw [Function.update_of_ne hρ]
  constructor
  · intro τ hτ
    exact (hidle τ).mpr (h.outside τ hτ)
  · intro τ hτ ρ hρ
    exact (hdone ρ).mpr (h.closed τ (fun heq => hτ ((hidle τ).mpr heq)) ρ hρ)
  · intro τ hτ hdeps heq
    exact h.progress τ hτ (fun ρ hρ => (hdone ρ).mp (hdeps ρ hρ)) ((hidle τ).mp heq)
  · intro ρ hρ
    by_cases heq : ρ = σ
    · subst heq
      exact absurd (by simpa using hρ) hmreserved
    · rw [Function.update_of_ne heq] at hρ
      exact absurd (h.quiet ρ hρ σ) (by simp [hbusy])
  · intro ρ hρ τ _
    by_cases heq : ρ = σ
    · subst heq
      exact absurd (by simpa using hρ) hentered
    · rw [Function.update_of_ne heq] at hρ
      exact absurd (h.first ρ hρ σ (Ne.symm heq)) hσidle

theorem complete (h : Sound L b) (hσ : b σ = .running) (hown : b' σ = .succeeded)
    (hfreed : ∀ τ ≠ σ, Frees L b σ τ → b' τ = .reserved)
    (hkept : ∀ τ ≠ σ, ¬ Frees L b σ τ → b' τ = b τ) : Sound L b' := by
  have hcases : ∀ τ, τ = σ ∨ (τ ≠ σ ∧ Frees L b σ τ ∧ b' τ = .reserved) ∨
      (τ ≠ σ ∧ ¬ Frees L b σ τ ∧ b' τ = b τ) := by
    intro τ
    by_cases hτ : τ = σ
    · exact Or.inl hτ
    · by_cases hfrees : Frees L b σ τ
      · exact Or.inr (Or.inl ⟨hτ, hfrees, hfreed τ hτ hfrees⟩)
      · exact Or.inr (Or.inr ⟨hτ, hfrees, hkept τ hτ hfrees⟩)
  have hstays : ∀ ρ, b ρ = .succeeded → b' ρ = .succeeded := by
    intro ρ hρ
    rcases hcases ρ with rfl | ⟨-, hfrees, -⟩ | ⟨-, -, heq⟩
    · exact hown
    · simp [hfrees.2.1] at hρ
    · rw [heq, hρ]
  constructor
  · intro τ hτ
    rcases hcases τ with rfl | ⟨-, hfrees, -⟩ | ⟨-, -, heq⟩
    · exact absurd (h.mem (by simp [hσ])) hτ
    · exact absurd hfrees.1 hτ
    · rw [heq, h.outside τ hτ]
  · intro τ hτ ρ hρ
    rcases hcases τ with rfl | ⟨-, hfrees, -⟩ | ⟨-, -, heq⟩
    · exact hstays ρ (h.closed τ (by simp [hσ]) ρ hρ)
    · rcases hfrees.2.2 ρ hρ with rfl | hdone
      · exact hown
      · exact hstays ρ hdone
    · exact hstays ρ (h.closed τ (heq ▸ hτ) ρ hρ)
  · intro τ hτ hdeps
    rcases hcases τ with rfl | ⟨-, -, heq⟩ | ⟨-, hnot, heq⟩
    · simp [hown]
    · simp [heq]
    · rw [heq]
      intro hidle
      refine hnot ⟨hτ, hidle, fun ρ hρ => ?_⟩
      have hdone := hdeps ρ hρ
      rcases hcases ρ with rfl | ⟨-, -, hreserved⟩ | ⟨-, -, hsame⟩
      · exact Or.inl rfl
      · simp [hreserved] at hdone
      · exact Or.inr (hsame ▸ hdone)
  · intro κ hκ τ
    rcases hcases κ with rfl | ⟨-, hfrees, -⟩ | ⟨-, -, hsame⟩
    · simp [hown] at hκ
    · rcases hcases τ with rfl | ⟨-, -, heq⟩ | ⟨hne, -, heq⟩
      · simp [hown, Mode.busy]
      · simp [heq, Mode.busy]
      · rw [heq]
        exact h.no_other_busy hσ hfrees hne
    · have := h.quiet κ (hsame ▸ hκ) σ
      simp [hσ, Mode.busy] at this
  · intro κ hκ
    rcases hcases κ with rfl | ⟨-, -, heq⟩ | ⟨hne, -, heq⟩
    · simp [hown] at hκ
    · simp [heq] at hκ
    · have := h.first κ (heq ▸ hκ) σ hne.symm
      simp [hσ] at this

theorem step (h : Sound L b) (hstep : Step L b b') : Sound L b' := by
  cases hstep with
  | begin hσ => exact h.update (by rcases hσ with hσ | hσ <;> simp [hσ, Mode.busy]) (by decide) (by decide)
  | complete hσ hown hfreed hkept => exact h.complete hσ hown hfreed hkept
  | announce hreserved hkept => exact h.announce hreserved hkept
  | publish hσ => exact h.update (by simp [hσ, Mode.busy]) (by decide) (by decide)
  | postpone hσ => exact h.update (by simp [hσ, Mode.busy]) (by decide) (by decide)
  | retry hσ => exact h.update (by simp [hσ, Mode.busy]) (by decide) (by decide)
  | fail hσ => exact h.update (by simp [hσ, Mode.busy]) (by decide) (by decide)

theorem start (hσ : σ ∈ L.members) (hroot : ∀ τ ∈ L.members, L.deps τ = ∅ ↔ τ = σ) :
    Sound L (Function.update (fun _ => .idle) σ .entered) := by
  have hother : ∀ τ, τ ≠ σ → Function.update (fun _ => Mode.idle) σ .entered τ = .idle :=
    fun τ hτ => Function.update_of_ne hτ _ _
  constructor
  · intro τ hτ
    exact hother τ fun heq => hτ (heq ▸ hσ)
  · intro τ hτ ρ hρ
    have heq : τ = σ := by
      by_contra hne
      exact hτ (hother τ hne)
    rw [heq, (hroot σ hσ).mpr rfl] at hρ
    exact absurd hρ (Finset.notMem_empty ρ)
  · intro τ hτ hdeps
    by_cases heq : τ = σ
    · subst heq
      simp
    · obtain ⟨ρ, hρ⟩ := Finset.nonempty_iff_ne_empty.mpr fun h => heq ((hroot τ hτ).mp h)
      have hdone := hdeps ρ hρ
      by_cases hρσ : ρ = σ
      · subst hρσ
        simp at hdone
      · simp [hother ρ hρσ] at hdone
  · intro κ hκ
    by_cases heq : κ = σ
    · subst heq
      simp at hκ
    · simp [hother κ heq] at hκ
  · intro κ hκ τ hne
    by_cases heq : κ = σ
    · exact hother τ (heq ▸ hne)
    · simp [hother κ heq] at hκ

omit [DecidableEq ι] in
theorem finished (h : Sound L b) (hbusy : ∀ τ, (b τ).busy = false) (hreserved : ∀ τ, b τ ≠ .reserved)
    (hfailed : ∀ τ, b τ ≠ .failed) : ∀ τ ∈ L.members, b τ = .succeeded := by
  have hall : ∀ n, ∀ τ ∈ L.members, L.rank τ = n → b τ = .succeeded := by
    intro n
    induction n using Nat.strong_induction_on with
    | _ n ih =>
      intro τ hτ hn
      have hidle : b τ ≠ .idle := by
        apply h.progress τ hτ
        intro ρ hρ
        obtain ⟨hρmem, hlt⟩ := L.lower τ hτ ρ hρ
        exact ih (L.rank ρ) (hn ▸ hlt) ρ hρmem rfl
      have hquiet := hbusy τ
      have hnone := hreserved τ
      have hgood := hfailed τ
      cases hmode : b τ <;> simp_all [Mode.busy]
  exact fun τ hτ => hall _ τ hτ rfl

end Sound
end Ragent.LayeredDispatch
