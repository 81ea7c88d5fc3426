import Mathlib.Data.Option.Basic

set_option autoImplicit false

/-!
# Runs of a machine

A machine is a partial function from states and events to states. A run may be held to a condition
on the event and the state it falls on; what such runs reach is governed by an invariant rule.
-/
namespace Ragent.GuardedRuns

variable {S E : Type*}

/-- The states a run from an initial state reaches if each of its events meets `ok`. -/
inductive Reachable (init : S → Prop) (exec : S → E → Option S) (ok : S → E → Prop) : S → Prop
  | start {s : S} (h : init s) : Reachable init exec ok s
  | next {s t : S} {e : E} (h : Reachable init exec ok s) (hok : ok s e) (hexec : exec s e = some t) :
      Reachable init exec ok t

variable {init : S → Prop} {exec : S → E → Option S} {ok : S → E → Prop}

theorem Reachable.invariant {I : S → Prop} (hinit : ∀ s, init s → I s)
    (hstep : ∀ s t e, I s → ok s e → exec s e = some t → I t) {s : S}
    (h : Reachable init exec ok s) : I s := by
  induction h with
  | start h => exact hinit _ h
  | next _ hok hexec ih => exact hstep _ _ _ ih hok hexec

theorem Reachable.mono {ok' : S → E → Prop} (hok : ∀ s e, ok s e → ok' s e) {s : S}
    (h : Reachable init exec ok s) : Reachable init exec ok' s := by
  induction h with
  | start h => exact .start h
  | next _ hok' hexec ih => exact ih.next (hok _ _ hok') hexec

theorem Reachable.trans {s t : S} (h : Reachable init exec ok s)
    (h' : Reachable (fun u => u = s) exec ok t) : Reachable init exec ok t := by
  induction h' with
  | start heq => exact heq ▸ h
  | next _ hok hexec ih => exact ih.next hok hexec

variable (exec) in
def run (s : S) : List E → Option S
  | [] => some s
  | e :: events => (exec s e).bind fun t => run t events

theorem reachable_of_run {s t : S} {events : List E} (h : Reachable init exec ok s)
    (hok : ∀ e ∈ events, ∀ u, ok u e) (hrun : run exec s events = some t) :
    Reachable init exec ok t := by
  induction events generalizing s with
  | nil => exact Option.some.inj hrun ▸ h
  | cons e events ih =>
    obtain ⟨u, hu, hrest⟩ := Option.bind_eq_some_iff.mp hrun
    exact ih (h.next (hok e List.mem_cons_self s) hu)
      (fun e' he' => hok e' (List.mem_cons_of_mem e he')) hrest

variable (exec) in
def guarded (check : S → E → Bool) (s : S) (e : E) : Option S :=
  if check s e then exec s e else none

theorem run_of_guarded_run {check : S → E → Bool} {s t : S} {events : List E}
    (h : run (guarded exec check) s events = some t) : run exec s events = some t := by
  induction events generalizing s with
  | nil => exact h
  | cons e events ih =>
    obtain ⟨u, hu, hrest⟩ := Option.bind_eq_some_iff.mp h
    unfold guarded at hu
    rw [Option.ite_none_right_eq_some] at hu
    exact Option.bind_eq_some_iff.mpr ⟨u, hu.2, ih hrest⟩

/-- The check may rely on what holds all along the run. -/
theorem reachable_of_guarded_run {check : S → E → Bool} {I : S → Prop}
    (hkeep : ∀ s t e, I s → check s e = true → exec s e = some t → I t)
    (hcheck : ∀ s e, I s → check s e = true → ok s e) {s t : S} {events : List E}
    (h : Reachable init exec ok s) (hI : I s) (hrun : run (guarded exec check) s events = some t) :
    Reachable init exec ok t ∧ I t := by
  induction events generalizing s with
  | nil => exact Option.some.inj hrun ▸ ⟨h, hI⟩
  | cons e events ih =>
    obtain ⟨u, hu, hrest⟩ := Option.bind_eq_some_iff.mp hrun
    unfold guarded at hu
    rw [Option.ite_none_right_eq_some] at hu
    exact ih (h.next (hcheck s e hI hu.1) hu.2) (hkeep s u e hI hu.1 hu.2) hrest

/-- The machine with a history beside its state. -/
def recorded {T : Type*} (exec : S → E → Option S) (note : S → E → T → T) (s : S × T) (e : E) :
    Option (S × T) :=
  (exec s.1 e).map fun t => (t, note s.1 e s.2)

theorem reachable_of_recorded {T : Type*} {note : S → E → T → T} {init' : S × T → Prop}
    {ok' : S × T → E → Prop} (hinit : ∀ s, init' s → init s.1) (hok : ∀ s e, ok' s e → ok s.1 e)
    {s : S × T} (h : Reachable init' (recorded exec note) ok' s) : Reachable init exec ok s.1 := by
  induction h with
  | start h => exact .start (hinit _ h)
  | next _ hok' hexec ih =>
    obtain ⟨t, ht, rfl⟩ := Option.map_eq_some_iff.mp hexec
    exact ih.next (hok _ _ hok') ht

theorem exists_recorded {T : Type*} {note : S → E → T → T} {init' : S × T → Prop}
    (hinit : ∀ s, init s → ∃ x, init' (s, x)) {s : S} (h : Reachable init exec ok s) :
    ∃ x, Reachable init' (recorded exec note) (fun s e => ok s.1 e) (s, x) := by
  induction h with
  | start h =>
    obtain ⟨x, hx⟩ := hinit _ h
    exact ⟨x, .start hx⟩
  | @next s t e _ hok hexec ih =>
    obtain ⟨x, hx⟩ := ih
    refine ⟨note s e x, hx.next hok ?_⟩
    unfold recorded
    rw [hexec]
    rfl

/-- A relation to another machine that every step keeps, with a step over there or without. -/
theorem Reachable.simulated {S' E' : Type*} {init' : S' → Prop} {exec' : S' → E' → Option S'}
    {ok' : S' → E' → Prop} {R : S → S' → Prop} (hinit : ∀ s, init s → ∃ s', init' s' ∧ R s s')
    (hstep : ∀ s t e s', Reachable init exec ok s → ok s e → exec s e = some t → R s s' →
      R t s' ∨ ∃ e' t', ok' s' e' ∧ exec' s' e' = some t' ∧ R t t')
    {s : S} (h : Reachable init exec ok s) : ∃ s', Reachable init' exec' ok' s' ∧ R s s' := by
  induction h with
  | start h =>
    obtain ⟨s', hs', hrelated⟩ := hinit _ h
    exact ⟨s', .start hs', hrelated⟩
  | @next s t e hreach hok hexec ih =>
    obtain ⟨s', hs', hrelated⟩ := ih
    rcases hstep s t e s' hreach hok hexec hrelated with hstill | ⟨e', t', hok', hexec', hnext⟩
    · exact ⟨s', hs', hstill⟩
    · exact ⟨t', hs'.next hok' hexec', hnext⟩

end Ragent.GuardedRuns
