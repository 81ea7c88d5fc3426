import Mathlib.Data.Nat.Notation

set_option autoImplicit false

/-!
# Code that raises

Two rules for sequences of calls in `Except`: what a result says of the calls before it, and which
exceptions may leave them.
-/
namespace Ragent.Exceptions

variable {ε α β : Type}

theorem ok_of_bind {x : Except ε α} {f : α → Except ε β} {b : β} (h : x >>= f = .ok b) :
    ∃ a, x = .ok a ∧ f a = .ok b := by
  cases x with
  | error e => cases h
  | ok a => exact ⟨a, rfl, h⟩

theorem mapM_ok {l : List α} {f : α → Except ε β} (h : ∀ a ∈ l, ∃ b, f a = .ok b) :
    ∃ bs, l.mapM f = .ok bs ∧ bs.map Except.ok = l.map f := by
  induction l with
  | nil => exact ⟨[], rfl, rfl⟩
  | cons a l ih =>
    rcases h a List.mem_cons_self with ⟨b, hb⟩
    rcases ih fun a ha => h a (List.mem_cons_of_mem _ ha) with ⟨bs, hbs, hall⟩
    refine ⟨b :: bs, ?_, ?_⟩
    · rw [List.mapM_cons, hb, hbs]
      rfl
    · rw [List.map_cons, List.map_cons, hb, hall]

def RaisesOnly (P : ε → Prop) (x : Except ε α) : Prop := ∀ e, x = .error e → P e

variable {P : ε → Prop}

theorem RaisesOnly.ok (a : α) : RaisesOnly P (.ok a) := by
  intro e h
  cases h

theorem RaisesOnly.error {e : ε} (h : P e) : RaisesOnly P (.error e : Except ε α) := by
  intro e' he
  exact Except.error.inj he ▸ h

theorem RaisesOnly.bind {x : Except ε α} {f : α → Except ε β} (hx : RaisesOnly P x)
    (hf : ∀ a, x = .ok a → RaisesOnly P (f a)) : RaisesOnly P (x >>= f) := by
  cases x with
  | error e =>
    intro e' h
    exact Except.error.inj h ▸ hx e rfl
  | ok a => exact hf a rfl

theorem RaisesOnly.forM {l : List β} {f : β → Except ε PUnit}
    (h : ∀ b ∈ l, RaisesOnly P (f b)) : RaisesOnly P (l.forM f) := by
  induction l with
  | nil => exact .ok _
  | cons b l ih =>
    change RaisesOnly P (f b >>= fun _ => l.forM f)
    apply (h b List.mem_cons_self).bind
    intro _ _
    exact ih fun b' hb' => h b' (List.mem_cons_of_mem b hb')

theorem RaisesOnly.ok_or_error {x : Except ε α} (h : RaisesOnly P x) :
    (∃ a, x = .ok a) ∨ ∃ e, x = .error e ∧ P e := by
  cases x with
  | error e => exact .inr ⟨e, rfl, h e rfl⟩
  | ok a => exact .inl ⟨a, rfl⟩

end Ragent.Exceptions
