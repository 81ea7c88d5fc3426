import Mathlib.Data.Nat.Notation
import Mathlib.Logic.Function.Basic
import Ragent.GuardedRuns

set_option autoImplicit false

/-!
# Widths of collections

`ensure_collection` of `ragent/retrieval/vectors.py`, one request to the vector database at a time.
Any number of calls are under way, and any of them makes the next request.
-/
namespace Ragent.CollectionWidths
open GuardedRuns

def collectionFor (strategy : String) : String := "ragent_" ++ strategy

abbrev Collections := String → Option ℕ

/-- `get_collection`, or the status of the response. -/
def getCollection (collections : Collections) (name : String) : Except ℕ ℕ :=
  match collections name with
  | some size => .ok size
  | none => .error 404

/-- `create_collection`, or the status of the response. -/
def createCollection (collections : Collections) (name : String) (size : ℕ) :
    Except ℕ Collections :=
  match collections name with
  | some _ => .error 409
  | none => .ok (Function.update collections name (some size))

structure Arguments where
  strategy : String
  dims : ℕ

def Arguments.name (a : Arguments) : String := collectionFor a.strategy

inductive Failure
  /-- Its text names the collection and both widths. -/
  | dimensionMismatch (name : String) (existing dims : ℕ)
  | unexpectedResponse (status : ℕ)

inductive Call
  | started
  /-- `collection_exists` was true. -/
  | found
  /-- `collection_exists` was false. -/
  | missing
  | returned
  | raised (failure : Failure)

structure State (ι : Type) where
  collections : Collections
  calls : ι → Call

section
variable {ι : Type} [DecidableEq ι] (arguments : ι → Arguments)

def State.goOn (s : State ι) (i : ι) (call : Call) : State ι :=
  { s with calls := Function.update s.calls i call }

def exec (s : State ι) (i : ι) : Option (State ι) :=
  let name := (arguments i).name
  let dims := (arguments i).dims
  match s.calls i with
  | .started => some (s.goOn i (if (s.collections name).isSome then .found else .missing))
  | .found => match getCollection s.collections name with
    | .ok existing =>
      if existing ≠ dims then some (s.goOn i (.raised (.dimensionMismatch name existing dims)))
      else some (s.goOn i .returned)
    | .error status => some (s.goOn i (.raised (.unexpectedResponse status)))
  | .missing => match createCollection s.collections name dims with
    | .ok collections => some { collections := collections, calls := (s.goOn i .returned).calls }
    | .error status =>
      if status ≠ 409 then some (s.goOn i (.raised (.unexpectedResponse status)))
      -- another worker got there first
      else some (s.goOn i .returned)
  | .returned | .raised _ => none

inductive Step (s : State ι) (i : ι) : State ι → Prop
  | finds (hcall : s.calls i = .started) {size : ℕ}
      (hsize : s.collections (arguments i).name = some size) : Step s i (s.goOn i .found)
  | misses (hcall : s.calls i = .started) (hnone : s.collections (arguments i).name = none) :
      Step s i (s.goOn i .missing)
  | agrees (hcall : s.calls i = .found)
      (hsize : s.collections (arguments i).name = some (arguments i).dims) :
      Step s i (s.goOn i .returned)
  | differs (hcall : s.calls i = .found) {existing : ℕ}
      (hsize : s.collections (arguments i).name = some existing)
      (hne : existing ≠ (arguments i).dims) :
      Step s i (s.goOn i
        (.raised (.dimensionMismatch (arguments i).name existing (arguments i).dims)))
  | vanished (hcall : s.calls i = .found) (hnone : s.collections (arguments i).name = none) :
      Step s i (s.goOn i (.raised (.unexpectedResponse 404)))
  | creates (hcall : s.calls i = .missing) (hnone : s.collections (arguments i).name = none) :
      Step s i
        { collections :=
            Function.update s.collections (arguments i).name (some (arguments i).dims)
          calls := (s.goOn i .returned).calls }
  | loses (hcall : s.calls i = .missing) {size : ℕ}
      (hsize : s.collections (arguments i).name = some size) : Step s i (s.goOn i .returned)

variable {arguments} {s t : State ι} {i : ι}

theorem step_of_exec (h : exec arguments s i = some t) : Step arguments s i t := by
  unfold exec getCollection createCollection at h
  cases hsize : s.collections (arguments i).name with
  | none =>
    cases hcall : s.calls i with
    | started =>
      simp only [hcall, hsize] at h
      exact Option.some.inj h ▸ Step.misses hcall hsize
    | found =>
      simp only [hcall, hsize] at h
      exact Option.some.inj h ▸ Step.vanished hcall hsize
    | missing =>
      simp only [hcall, hsize] at h
      exact Option.some.inj h ▸ Step.creates hcall hsize
    | returned => simp [hcall] at h
    | raised failure => simp [hcall] at h
  | some size =>
    cases hcall : s.calls i with
    | started =>
      simp only [hcall, hsize] at h
      exact Option.some.inj h ▸ Step.finds hcall hsize
    | found =>
      simp only [hcall, hsize] at h
      by_cases hne : size ≠ (arguments i).dims
      · rw [if_pos hne] at h
        exact Option.some.inj h ▸ Step.differs hcall hsize hne
      · rw [if_neg hne] at h
        exact Option.some.inj h ▸ Step.agrees hcall (hsize.trans (congrArg some (not_not.mp hne)))
    | missing =>
      simp only [hcall, hsize] at h
      exact Option.some.inj h ▸ Step.loses hcall hsize
    | returned => simp [hcall] at h
    | raised failure => simp [hcall] at h

def Fits (a : Arguments) (width : Option ℕ) : Call → Prop
  | .started | .missing => True
  | .found => ∃ size, width = some size
  | .returned => width = some a.dims
  | .raised failure => ∃ existing, width = some existing ∧ existing ≠ a.dims ∧
      failure = .dimensionMismatch a.name existing a.dims

theorem Fits.created {a : Arguments} {call : Call} (h : Fits a none call) (size : ℕ) :
    Fits a (some size) call := by
  cases call with
  | started => exact trivial
  | missing => exact trivial
  | found => exact ⟨size, rfl⟩
  | returned => cases h
  | raised failure =>
    rcases h with ⟨existing, hnone, -⟩
    cases hnone

variable (arguments) in
def AllFit (s : State ι) : Prop :=
  ∀ i, Fits (arguments i) (s.collections (arguments i).name) (s.calls i)

theorem AllFit.goOn (h : AllFit arguments s) {call : Call}
    (hcall : Fits (arguments i) (s.collections (arguments i).name) call) :
    AllFit arguments (s.goOn i call) := by
  intro j
  change Fits (arguments j) (s.collections (arguments j).name) (Function.update s.calls i call j)
  by_cases hj : j = i
  · subst hj
    rw [Function.update_self]
    exact hcall
  · rw [Function.update_of_ne hj]
    exact h j

variable (arguments) in
/-- A call that is about to create its collection does not find one of another width. -/
def Agreed (s : State ι) (i : ι) : Prop :=
  s.calls i = .missing → ∀ size, s.collections (arguments i).name = some size →
    size = (arguments i).dims

theorem AllFit.step (h : AllFit arguments s) (hagreed : Agreed arguments s i)
    (hstep : Step arguments s i t) : AllFit arguments t := by
  cases hstep with
  | finds hcall hsize => exact h.goOn ⟨_, hsize⟩
  | misses hcall hnone => exact h.goOn trivial
  | agrees hcall hsize => exact h.goOn hsize
  | differs hcall hsize hne => exact h.goOn ⟨_, hsize, hne, rfl⟩
  | vanished hcall hnone =>
    have hfound := h i
    rw [hcall, hnone] at hfound
    rcases hfound with ⟨size, hsize⟩
    cases hsize
  | creates hcall hnone =>
    intro j
    change Fits (arguments j) (Function.update s.collections (arguments i).name
      (some (arguments i).dims) (arguments j).name) (Function.update s.calls i .returned j)
    by_cases hj : j = i
    · subst hj
      rw [Function.update_self, Function.update_self]
      rfl
    · rw [Function.update_of_ne hj]
      by_cases hname : (arguments j).name = (arguments i).name
      · have hother := h j
        rw [hname, hnone] at hother
        rw [hname, Function.update_self]
        exact hother.created _
      · rw [Function.update_of_ne hname]
        exact h j
  | loses hcall hsize => exact h.goOn (hsize.trans (congrArg some (hagreed hcall _ hsize)))

def Initial (collections : Collections) (s : State ι) : Prop :=
  s = { collections := collections, calls := fun _ => .started }

variable (arguments) in
/-- Every call that has returned leaves its collection with its width, and every call that has
    raised an exception has found another width. -/
structure Right (s : State ι) : Prop where
  returned : ∀ i, s.calls i = .returned →
    s.collections (arguments i).name = some (arguments i).dims
  raised : ∀ i failure, s.calls i = .raised failure → ∃ existing,
    s.collections (arguments i).name = some existing ∧ existing ≠ (arguments i).dims ∧
      failure = .dimensionMismatch (arguments i).name existing (arguments i).dims

omit [DecidableEq ι] in
theorem AllFit.right (h : AllFit arguments s) : Right arguments s := by
  constructor
  · intro j hcall
    have hfits := h j
    rw [hcall] at hfits
    exact hfits
  · intro j failure hcall
    have hfits := h j
    rw [hcall] at hfits
    exact hfits

variable {collections : Collections}

omit [DecidableEq ι] in
theorem allFit_of_initial (h : Initial collections s) : AllFit arguments s := by
  intro j
  rw [h]
  trivial

theorem right_of_agreed
    (h : Reachable (Initial collections) (exec arguments) (Agreed arguments) s) :
    Right arguments s := by
  have hfits : AllFit arguments s := by
    apply h.invariant
    · intro s hs
      exact allFit_of_initial hs
    · intro s t j hfits hagreed hexec
      exact hfits.step hagreed (step_of_exec hexec)
  exact hfits.right

variable (arguments collections) in
structure Grown (s : State ι) : Prop where
  kept : ∀ name size, collections name = some size → s.collections name = some size
  added : ∀ name size, collections name = none → s.collections name = some size →
    ∃ j, (arguments j).name = name ∧ (arguments j).dims = size
  missing : ∀ i, s.calls i = .missing → collections (arguments i).name = none

theorem Grown.goOn (h : Grown arguments collections s) {call : Call}
    (hcall : call = .missing → collections (arguments i).name = none) :
    Grown arguments collections (s.goOn i call) := by
  refine ⟨h.kept, h.added, ?_⟩
  intro j hj
  change Function.update s.calls i call j = .missing at hj
  by_cases hji : j = i
  · subst hji
    rw [Function.update_self] at hj
    exact hcall hj
  · rw [Function.update_of_ne hji] at hj
    exact h.missing j hj

theorem Grown.step (h : Grown arguments collections s) (hstep : Step arguments s i t) :
    Grown arguments collections t := by
  cases hstep with
  | finds hcall hsize => exact h.goOn (by simp)
  | misses hcall hnone =>
    apply h.goOn
    intro _
    cases hold : collections (arguments i).name with
    | none => rfl
    | some size =>
      rw [h.kept _ _ hold] at hnone
      cases hnone
  | agrees hcall hsize => exact h.goOn (by simp)
  | differs hcall hsize hne => exact h.goOn (by simp)
  | vanished hcall hnone => exact h.goOn (by simp)
  | creates hcall hnone =>
    have hreturned : Grown arguments collections (s.goOn i .returned) := h.goOn (by simp)
    refine ⟨?_, ?_, hreturned.missing⟩
    · intro name size hold
      have hsize := h.kept name size hold
      have hne : name ≠ (arguments i).name := by
        intro heq
        rw [heq, hnone] at hsize
        cases hsize
      exact (Function.update_of_ne hne _ _).trans hsize
    · intro name size hold hsize
      change Function.update s.collections _ _ name = some size at hsize
      by_cases hname : name = (arguments i).name
      · subst hname
        rw [Function.update_self] at hsize
        exact ⟨i, rfl, Option.some.inj hsize⟩
      · rw [Function.update_of_ne hname] at hsize
        exact h.added name size hold hsize
  | loses hcall hsize => exact h.goOn (by simp)

omit [DecidableEq ι] in
theorem grown_of_initial (h : Initial collections s) : Grown arguments collections s := by
  rw [h]
  constructor
  · exact fun _ _ hold => hold
  · intro name size hold hsize
    exact absurd (hold.symm.trans hsize) (by simp)
  · intro j hj
    cases hj

variable (arguments collections) in
/-- A collection that did not exist is asked for with one width only. -/
def OneWidth : Prop :=
  ∀ i j, (arguments i).name = (arguments j).name → collections (arguments i).name = none →
    (arguments i).dims = (arguments j).dims

omit [DecidableEq ι] in
theorem Grown.agreed (h : Grown arguments collections s) (hone : OneWidth arguments collections) :
    Agreed arguments s i := by
  intro hcall size hsize
  have hnone := h.missing i hcall
  rcases h.added _ size hnone hsize with ⟨j, hname, hdims⟩
  rw [← hdims]
  exact (hone i j hname.symm hnone).symm

theorem exec_misses (hcall : s.calls i = .started)
    (hnone : s.collections (arguments i).name = none) :
    exec arguments s i = some (s.goOn i .missing) := by
  simp [exec, hcall, hnone]

theorem exec_creates (hcall : s.calls i = .missing)
    (hnone : s.collections (arguments i).name = none) :
    exec arguments s i = some
      { collections := Function.update s.collections (arguments i).name (some (arguments i).dims)
        calls := (s.goOn i .returned).calls } := by
  simp [exec, hcall, createCollection, hnone]

theorem exec_loses (hcall : s.calls i = .missing) {size : ℕ}
    (hsize : s.collections (arguments i).name = some size) :
    exec arguments s i = some (s.goOn i .returned) := by
  simp [exec, hcall, createCollection, hsize]

/-- Two calls look for a collection, do not find it, and create it one after the other. -/
theorem lost_race {j : ι} (hij : i ≠ j) (hname : (arguments i).name = (arguments j).name)
    (hnone : collections (arguments i).name = none) :
    ∃ s, Reachable (Initial collections) (exec arguments) (fun _ _ => True) s ∧
      s.calls j = .returned ∧ s.collections (arguments j).name = some (arguments i).dims := by
  have h0 : Reachable (Initial collections) (exec arguments) (fun _ _ => True)
      { collections := collections, calls := fun _ => .started } := Reachable.start rfl
  have h1 := h0.next trivial (exec_misses (i := i) rfl hnone)
  have h2 := h1.next trivial (exec_misses (i := j) (Function.update_of_ne hij.symm _ _)
    (hname ▸ hnone))
  have hwaits : Function.update (Function.update (fun _ => Call.started) i .missing) j .missing i =
      Call.missing := by
    rw [Function.update_of_ne hij, Function.update_self]
  have h3 := h2.next trivial (exec_creates hwaits hnone)
  have hlater : Function.update (Function.update (Function.update (fun _ => Call.started) i
      .missing) j .missing) i .returned j = Call.missing := by
    rw [Function.update_of_ne hij.symm, Function.update_self]
  have hsize : Function.update collections (arguments i).name (some (arguments i).dims)
      (arguments j).name = some (arguments i).dims := by
    rw [hname, Function.update_self]
  have h4 := h3.next trivial (exec_loses hlater hsize)
  exact ⟨_, h4, Function.update_self _ _ _, hsize⟩

/-- In every run each call ends with its collection at its width or with a mismatch, exactly if no
    new collection is asked for with two widths. -/
theorem returned_calls_have_their_width_iff :
    (∀ s, Reachable (Initial collections) (exec arguments) (fun _ _ => True) s →
      Right arguments s) ↔ OneWidth arguments collections := by
  constructor
  · intro hright i j hname hnone
    by_cases hij : i = j
    · rw [hij]
    · rcases lost_race hij hname hnone with ⟨s, hreach, hreturned, hwidth⟩
      have hdims := ((hright s hreach).returned j hreturned).symm.trans hwidth
      exact (Option.some.inj hdims).symm
  · intro hone s hreach
    have hinv : AllFit arguments s ∧ Grown arguments collections s := by
      apply hreach.invariant
      · intro s hs
        exact ⟨allFit_of_initial hs, grown_of_initial hs⟩
      · intro s t j hinv _ hexec
        have hstep := step_of_exec hexec
        exact ⟨hinv.1.step (hinv.2.agreed hone) hstep, hinv.2.step hstep⟩
    exact hinv.1.right

end

def twoModels : Bool → Arguments
  | false => { strategy := "layout", dims := 384 }
  | true => { strategy := "layout", dims := 768 }

theorem a_lost_race_hides_the_mismatch :
    ¬ ∀ s, Reachable (Initial fun _ => none) (exec twoModels) (fun _ _ => True) s →
      Right twoModels s := by
  intro hright
  have hrace : ∃ s, Reachable (Initial fun _ => none) (exec twoModels) (fun _ _ => True) s ∧
      s.calls true = .returned ∧ s.collections (twoModels true).name = some 384 :=
    lost_race Bool.false_ne_true rfl rfl
  rcases hrace with ⟨s, hreach, hreturned, hwidth⟩
  have hdims := ((hright s hreach).returned true hreturned).symm.trans hwidth
  exact absurd (Option.some.inj hdims) (by decide)

end Ragent.CollectionWidths
