import Mathlib.Data.List.Nodup

set_option autoImplicit false

/-!
# Lists with a key

Records in a list, each with a key of its own.
-/
namespace Ragent.Keyed

variable {α κ : Type*} {key : α → κ} {items : List α} {a : α}

theorem find_key [DecidableEq κ] (hkeys : (items.map key).Nodup) (h : a ∈ items) :
    items.find? (fun x => key x = key a) = some a := by
  cases hfind : items.find? (fun x => key x = key a) with
  | none => simpa using List.find?_eq_none.mp hfind a h
  | some other =>
    have hkey : key other = key a := by simpa using List.find?_some hfind
    rw [List.inj_on_of_nodup_map hkeys (List.mem_of_find?_eq_some hfind) h hkey]

theorem find_perm [DecidableEq κ] {items' : List α} (h : items'.Perm items)
    (hkeys : (items.map key).Nodup) (c : κ) :
    items'.find? (fun x => key x = c) = items.find? (fun x => key x = c) := by
  cases hfind : items.find? (fun x => key x = c) with
  | none =>
    rw [List.find?_eq_none] at hfind ⊢
    exact fun x hx => hfind x (h.mem_iff.mp hx)
  | some other =>
    have hkey : key other = c := by simpa using List.find?_some hfind
    have hmem := h.mem_iff.mpr (List.mem_of_find?_eq_some hfind)
    rw [← hkey]
    exact find_key ((h.map key).nodup_iff.mpr hkeys) hmem

theorem lookup_perm {β : Type*} [DecidableEq κ] {items items' : List (κ × β)}
    (h : items'.Perm items) (hkeys : (items.map (·.1)).Nodup) (c : κ) :
    items'.lookup c = items.lookup c := by
  induction h with
  | nil => rfl
  | cons item h ih =>
    simp only [List.lookup_eq_findSome?, List.findSome?_cons] at ih ⊢
    rw [ih (List.nodup_cons.mp hkeys).2]
  | swap first second rest =>
    have hne : first.1 ≠ second.1 := by
      have hnodup := (List.nodup_cons.mp hkeys).1
      rw [List.map_cons, List.mem_cons, not_or] at hnodup
      exact hnodup.1
    by_cases hfirst : c = first.1
    · subst hfirst
      simp [List.lookup_eq_findSome?, hne]
    · simp [List.lookup_eq_findSome?, List.findSome?_cons, hfirst]
  | trans h h' ih ih' => exact (ih ((h'.map (·.1)).nodup_iff.mpr hkeys)).trans (ih' hkeys)

theorem nodup_concat (hkeys : (items.map key).Nodup) (ha : key a ∉ items.map key) :
    ((items ++ [a]).map key).Nodup := by
  rw [List.map_append]
  exact (List.perm_append_singleton (key a) _).nodup_iff.mpr (List.nodup_cons.mpr ⟨ha, hkeys⟩)

theorem keys_subset_concat (key : α → κ) (items : List α) (a : α) :
    items.map key ⊆ (items ++ [a]).map key := by
  rw [List.map_append]
  exact List.subset_append_left _ _

theorem key_not_mem {rest : List α} (hkeys : ((items ++ a :: rest).map key).Nodup) :
    key a ∉ items.map key := by
  rw [List.map_append, List.map_cons] at hkeys
  intro hmem
  exact List.disjoint_of_nodup_append hkeys hmem List.mem_cons_self

theorem repr_injective {n k : ℕ} (h : n.repr = k.repr) : n = k := by
  have hparsed := congrArg (fun s => Nat.ofDigitChars 10 s.toList 0) h
  simpa [Nat.toList_repr] using hparsed

end Ragent.Keyed
