import Mathlib.Data.List.DropRight
import Ragent.SpacedWords

set_option autoImplicit false

/-!
# Cutting a sequence at its ends

What is left of a sequence when elements of a kind are taken away in front and behind, and what such
a cut does around a core that has none of the kind at its ends.
-/
namespace Ragent.EdgeCuts
open SpacedWords

variable {α : Type} {p q : α → Bool} {x y z : List α}

/-- `y` is `x` without some elements at its ends, all of the kind `p`. -/
def Cut (p : α → Bool) (x y : List α) : Prop :=
  ∃ front back, x = front ++ y ++ back ∧ (∀ a ∈ front, p a = true) ∧ ∀ a ∈ back, p a = true

namespace Cut

theorem refl (p : α → Bool) (x : List α) : Cut p x x := ⟨[], [], by simp, by simp, by simp⟩

theorem trans (hxy : Cut p x y) (hyz : Cut p y z) : Cut p x z := by
  obtain ⟨front, back, hx, hfront, hback⟩ := hxy
  obtain ⟨front', back', hy, hfront', hback'⟩ := hyz
  refine ⟨front ++ front', back' ++ back, by simp [hx, hy], ?_, ?_⟩
  · intro a ha
    exact (List.mem_append.mp ha).elim (hfront a) (hfront' a)
  · intro a ha
    exact (List.mem_append.mp ha).elim (hback' a) (hback a)

theorem mono (h : Cut p x y) (hpq : ∀ a, p a = true → q a = true) : Cut q x y := by
  obtain ⟨front, back, hx, hfront, hback⟩ := h
  exact ⟨front, back, hx, fun a ha => hpq a (hfront a ha), fun a ha => hpq a (hback a ha)⟩

theorem isInfix (h : Cut p x y) : y <:+: x := by
  obtain ⟨front, back, hx, -, -⟩ := h
  exact ⟨front, back, hx.symm⟩

theorem dropWhile (p : α → Bool) (x : List α) : Cut p x (x.dropWhile p) :=
  ⟨x.takeWhile p, [], by simp, fun _ ha => List.mem_takeWhile_imp ha, by simp⟩

theorem rdropWhile (p : α → Bool) (x : List α) : Cut p x (x.rdropWhile p) := by
  refine ⟨[], x.rtakeWhile p, ?_, by simp, fun _ ha => List.mem_rtakeWhile_imp ha⟩
  rw [List.nil_append, List.rdropWhile_append_rtakeWhile]

theorem trim (p : α → Bool) (x : List α) : Cut p x (trim p x) :=
  (dropWhile p x).trans (rdropWhile p _)

theorem mem (h : Cut p x y) {a : α} (ha : a ∈ x) (hp : p a = false) : a ∈ y := by
  obtain ⟨front, back, hx, hfront, hback⟩ := h
  rw [hx, List.mem_append, List.mem_append] at ha
  obtain (ha | ha) | ha := ha
  · exact absurd (hfront a ha) (by simp [hp])
  · exact ha
  · exact absurd (hback a ha) (by simp [hp])

theorem filter_eq (h : Cut p x y) (hpq : ∀ a, q a = true → p a = false) :
    y.filter q = x.filter q := by
  obtain ⟨front, back, hx, hfront, hback⟩ := h
  have hnone : ∀ z : List α, (∀ a ∈ z, p a = true) → z.filter q = [] := by
    intro z hz
    apply List.filter_eq_nil_iff.mpr
    intro a ha hq
    exact absurd (hz a ha) (by simp [hpq a hq])
  rw [hx, List.filter_append, List.filter_append, hnone front hfront, hnone back hback,
    List.nil_append, List.append_nil]

theorem countP_eq (h : Cut p x y) (hpq : ∀ a, q a = true → p a = false) :
    x.countP q = y.countP q := by
  rw [List.countP_eq_length_filter, List.countP_eq_length_filter, h.filter_eq hpq]

end Cut

def Firm (q : α → Bool) (m : List α) : Prop :=
  (∃ a rest, m = a :: rest ∧ q a = true) ∧ ∃ rest a, m = rest ++ [a] ∧ q a = true

theorem last_firm {u v m : List α} (hm : Firm q m) {c : α} (hc : q c = false) :
    (u ++ m ++ v).getLast? = some c ↔ v.getLast? = some c := by
  obtain ⟨-, rest, a, hm, ha⟩ := hm
  induction v using List.reverseRecOn with
  | nil =>
    have hne : a ≠ c := by
      intro heq
      rw [heq, hc] at ha
      cases ha
    simp [hm, hne]
  | append_singleton v b _ => simp

theorem dropWhile_firm {u v m : List α} (hm : Firm q m) (hpq : ∀ a, q a = true → p a = false) :
    (u ++ m ++ v).dropWhile p = u.dropWhile p ++ m ++ v := by
  obtain ⟨⟨a, rest, hm, ha⟩, -⟩ := hm
  subst hm
  induction u with
  | nil => simp [hpq a ha]
  | cons b u ih =>
    by_cases hb : p b = true
    · simpa [hb] using ih
    · simp [hb]

theorem rdropWhile_firm {u v m : List α} (hm : Firm q m) (hpq : ∀ a, q a = true → p a = false) :
    (u ++ m ++ v).rdropWhile p = u ++ m ++ v.rdropWhile p := by
  obtain ⟨-, rest, a, hm, ha⟩ := hm
  subst hm
  induction v using List.reverseRecOn with
  | nil =>
    rw [List.append_nil, ← List.append_assoc]
    simp [hpq a ha]
  | append_singleton v b ih =>
    rw [← List.append_assoc, List.rdropWhile_concat, List.rdropWhile_concat]
    split
    · exact ih
    · rw [List.append_assoc]

theorem trim_firm {u v m : List α} (hm : Firm q m) (hpq : ∀ a, q a = true → p a = false) :
    trim p (u ++ m ++ v) = u.dropWhile p ++ m ++ v.rdropWhile p := by
  unfold trim
  rw [dropWhile_firm hm hpq, rdropWhile_firm hm hpq]

/-- A step on a state and a sequence does the same around every core of the kind `K`: it leaves the
    core where it is, and takes away no element of the kind `q` beside it. -/
def Frames {σ : Type} (K : List α → Prop) (q : α → Bool) (f : σ × List α → σ × List α) : Prop :=
  ∀ b u v, ∃ b' u' v', u'.filter q = u.filter q ∧ v'.filter q = v.filter q ∧
    ∀ m, K m → f (b, u ++ m ++ v) = (b', u' ++ m ++ v')

namespace Frames
variable {σ : Type} {K K' : List α → Prop} {f g : σ × List α → σ × List α}

theorem comp (hg : Frames K q g) (hf : Frames K q f) : Frames K q (g ∘ f) := by
  intro b u v
  obtain ⟨b₁, u₁, v₁, hu₁, hv₁, h₁⟩ := hf b u v
  obtain ⟨b₂, u₂, v₂, hu₂, hv₂, h₂⟩ := hg b₁ u₁ v₁
  refine ⟨b₂, u₂, v₂, hu₂.trans hu₁, hv₂.trans hv₁, ?_⟩
  intro m hm
  rw [Function.comp_apply, h₁ m hm, h₂ m hm]

theorem mono (h : Frames K q f) (hK : ∀ m, K' m → K m) : Frames K' q f := by
  intro b u v
  obtain ⟨b', u', v', hu, hv, h⟩ := h b u v
  exact ⟨b', u', v', hu, hv, fun m hm => h m (hK m hm)⟩

theorem dropWhile (hpq : ∀ a, q a = true → p a = false) :
    Frames (σ := σ) (Firm q) q (Prod.map id (List.dropWhile p)) := by
  intro b u v
  refine ⟨b, u.dropWhile p, v, (Cut.dropWhile p u).filter_eq hpq, rfl, ?_⟩
  intro m hm
  rw [Prod.map_apply, dropWhile_firm hm hpq]
  rfl

theorem trim (hpq : ∀ a, q a = true → p a = false) :
    Frames (σ := σ) (Firm q) q (Prod.map id (trim p)) := by
  intro b u v
  refine ⟨b, u.dropWhile p, v.rdropWhile p, (Cut.dropWhile p u).filter_eq hpq, (Cut.rdropWhile p v).filter_eq hpq, ?_⟩
  intro m hm
  rw [Prod.map_apply, trim_firm hm hpq]
  rfl

end Frames

end Ragent.EdgeCuts
