import Mathlib.Data.Finset.Card
import Ragent.GuardedRuns
import Ragent.Messages

set_option autoImplicit false

/-!
# What the structural checks buy

`validate_pipeline` of `ragent/pipeline/stages.py` over an arbitrary pipeline, and the runs of the
scheduler under it.
-/
namespace Ragent.PipelineProgress
open Formats Keyed Stages Exceptions GuardedRuns
open Messages (familyName)

/-- What `validate_pipeline` raises. -/
inductive PipelineError
  | unknownDependencies (stage : String) (unknown : List String)
  | noFamily (stage : String)
  | noAttempts (stage : String)
  | declaredBefore (stage : String) (missing : List String)
  | noStages (family : FormatFamily)
  | noTerminal (family : FormatFamily)
  | deadlock (family : FormatFamily) (stuck : List String)
  deriving DecidableEq, Repr

def TERMINAL_STAGE : String := "embed"

/-- The text of the `ValueError`; `repr` is Python's. -/
def PipelineError.text (repr : String → String) : PipelineError → String
  | .unknownDependencies stage unknown =>
    "stage " ++ repr stage ++ " depends on unknown " ++ listed unknown
  | .noFamily stage => "stage " ++ repr stage ++ " applies to no format family"
  | .noAttempts stage => "stage " ++ repr stage ++ " has max_attempts < 1"
  | .declaredBefore stage missing =>
    "stage " ++ repr stage ++ " is declared before its dependencies " ++ listed missing
  | .noStages family => "family " ++ familyName family ++ " has no stages"
  | .noTerminal family => "family " ++ familyName family ++ " never reaches " ++ repr TERMINAL_STAGE
  | .deadlock family stuck =>
    "family " ++ familyName family ++ " deadlocks; unreachable stages " ++ listed stuck
where
  listed (names : List String) : String := "[" ++ ", ".intercalate (names.map repr) ++ "]"

/-- The body of the first `for stage in PIPELINE`. -/
def checkStage (names : Finset String) (stage : Stage) : Except PipelineError Unit :=
  let unknown := stage.dependsOn.toFinset \ names
  if unknown ≠ ∅ then .error (.unknownDependencies stage.name (sortedNames unknown))
  else if stage.families.isEmpty then .error (.noFamily stage.name)
  else if stage.maxAttempts < 1 then .error (.noAttempts stage.name)
  else .ok ()

/-- The second one: declaration order must be topological. -/
def declarationOrder : Finset String → List Stage → Except PipelineError Unit
  | _, [] => .ok ()
  | seen, stage :: stages =>
    let missing := stage.dependsOn.toFinset \ seen
    if missing ≠ ∅ then .error (.declaredBefore stage.name (sortedNames missing))
    else declarationOrder (insert stage.name seen) stages

section
variable (pipeline : List Stage) (family : FormatFamily)

def namesOf (stages : List Stage) : Finset String := (stages.map (·.name)).toFinset

@[simp] theorem mem_namesOf {stages : List Stage} {name : String} :
    name ∈ namesOf stages ↔ ∃ stage ∈ stages, stage.name = name := by
  simp [namesOf]

/-- `while True`: what is completed once nothing is ready any more. -/
def simulate (completed : Finset String) : Finset String :=
  let ready := readyStages pipeline family completed ∅
  if _h : ready = [] then completed else simulate (completed ∪ namesOf ready)
termination_by (stageNamesFor pipeline family \ completed).card
decreasing_by
  obtain ⟨stage, hstage⟩ := List.exists_mem_of_ne_nil _ _h
  obtain ⟨hpath, ⟨hnew, -⟩, -⟩ := mem_readyStages.mp hstage
  have hname : stage.name ∈ stageNamesFor pipeline family :=
    mem_stageNamesFor.mpr ⟨stage, hpath.1, hpath.2, rfl⟩
  apply Finset.card_lt_card
  rw [Finset.ssubset_iff_of_subset (Finset.sdiff_subset_sdiff (Finset.Subset.refl _)
    Finset.subset_union_left)]
  refine ⟨stage.name, Finset.mem_sdiff.mpr ⟨hname, hnew⟩, ?_⟩
  rw [Finset.mem_sdiff, not_and_not_right]
  intro _
  exact Finset.mem_union_right _ (mem_namesOf.mpr ⟨stage, hstage, rfl⟩)

/-- The body of `for family in FormatFamily`. -/
def checkFamily : Except PipelineError Unit :=
  let path := stagesFor pipeline family
  if path.isEmpty then .error (.noStages family)
  else if TERMINAL_STAGE ∉ namesOf path then .error (.noTerminal family)
  else
    let completed := simulate pipeline family ∅
    if isComplete pipeline family completed then .ok ()
    else .error (.deadlock family (sortedNames (stageNamesFor pipeline family \ completed)))

def validatePipeline : Except PipelineError Unit := do
  pipeline.forM (checkStage (namesOf pipeline))
  declarationOrder ∅ pipeline
  allFamilies.forM (checkFamily pipeline)

theorem declared_before {seen : Finset String} {front stages : List Stage} {stage : Stage}
    (h : declarationOrder seen (front ++ stage :: stages) = .ok ()) :
    stage.dependsOn.toFinset ⊆ seen ∪ namesOf front := by
  induction front generalizing seen with
  | nil =>
    rw [List.nil_append, declarationOrder] at h
    split_ifs at h with hmissing
    intro name hname
    have hseen := Finset.sdiff_eq_empty_iff_subset.mp (not_not.mp hmissing) hname
    exact Finset.mem_union_left _ hseen
  | cons first front ih =>
    rw [List.cons_append, declarationOrder] at h
    split_ifs at h
    intro name hname
    have hin := ih h hname
    rw [Finset.mem_union, Finset.mem_insert] at hin
    rw [Finset.mem_union, mem_namesOf]
    rcases hin with (rfl | hseen) | hfront
    · exact Or.inr ⟨first, List.mem_cons_self, rfl⟩
    · exact Or.inl hseen
    · obtain ⟨s, hs, hs'⟩ := mem_namesOf.mp hfront
      exact Or.inr ⟨s, List.mem_cons_of_mem first hs, hs'⟩

variable {pipeline family}

/-- The first stage in declaration order that a family still misses has its dependencies. -/
theorem exists_next (hnames : (pipeline.map (·.name)).Nodup)
    (hcheck : declarationOrder ∅ pipeline = .ok ()) {completed : Finset String}
    (hmissing : isComplete pipeline family completed = false) :
    ∃ stage ∈ pipeline, family ∈ stage.families ∧ stage.name ∉ completed ∧
      effectiveDeps pipeline family stage ⊆ completed := by
  cases hfirst : pipeline.find? (fun s => family ∈ s.families ∧ s.name ∉ completed) with
  | none =>
    have hnone := List.find?_eq_none.mp hfirst
    have hall : isComplete pipeline family completed = true := by
      rw [isComplete_iff]
      intro stage hstage hfamily
      by_contra hnew
      exact hnone stage hstage (by simp [hfamily, hnew])
    simp [hall] at hmissing
  | some stage =>
    obtain ⟨hstage, front, rest, hsplit, hfront⟩ := List.find?_eq_some_iff_append.mp hfirst
    have hmem : stage ∈ pipeline := List.mem_of_find?_eq_some hfirst
    rw [decide_eq_true_eq] at hstage
    refine ⟨stage, hmem, hstage.1, hstage.2, ?_⟩
    intro name hname
    rw [effectiveDeps, Finset.mem_inter] at hname
    obtain ⟨dep, hdep, hfamily, rfl⟩ := mem_stageNamesFor.mp hname.2
    rw [hsplit] at hcheck
    have hdeclared := declared_before hcheck hname.1
    rw [Finset.empty_union, mem_namesOf] at hdeclared
    obtain ⟨dep', hdep', hsame⟩ := hdeclared
    have hin : dep' ∈ pipeline := by
      rw [hsplit]
      exact List.mem_append_left _ hdep'
    have heq : dep' = dep := List.inj_on_of_nodup_map hnames hin hdep hsame
    subst heq
    by_contra hnew
    simpa [hfamily, hnew] using hfront dep' hdep'

theorem simulate_complete (hnames : (pipeline.map (·.name)).Nodup)
    (hcheck : declarationOrder ∅ pipeline = .ok ()) (completed : Finset String) :
    isComplete pipeline family (simulate pipeline family completed) = true := by
  fun_induction simulate pipeline family completed with
  | case1 completed ready hready =>
    by_contra hmissing
    obtain ⟨stage, hstage, hfamily, hnew, hdeps⟩ :=
      exists_next hnames hcheck (by simpa using hmissing)
    have hmem : stage ∈ ready :=
      mem_readyStages.mpr ⟨⟨hstage, hfamily⟩, ⟨hnew, Finset.notMem_empty _⟩, hdeps⟩
    simp [hready] at hmem
  | case2 completed ready hready ih => exact ih

inductive Event
  | returned (stage : Stage)
  | finished (name : String)
  deriving DecidableEq, Repr

structure Schedule where
  completed : Finset String := ∅
  dispatched : Finset String := ∅
  /-- all that happened, oldest first -/
  log : List Event := []

/-- One call of `ready_stages` with all it returns dispatched, or one completion. -/
inductive Move
  | schedule
  | finish (name : String)
  deriving DecidableEq, Repr

variable (pipeline family) in
def exec (st : Schedule) : Move → Option Schedule
  | .schedule =>
    let ready := readyStages pipeline family st.completed st.dispatched
    some { completed := st.completed
           dispatched := st.dispatched ∪ namesOf ready
           log := st.log ++ ready.map .returned }
  | .finish name =>
    if name ∈ st.dispatched ∧ name ∉ st.completed then
      some { completed := insert name st.completed
             dispatched := st.dispatched
             log := st.log ++ [.finished name] }
    else none

variable (pipeline family) in
def Reached : Schedule → Prop := Reachable (· = {}) (exec pipeline family) fun _ _ => True

variable (pipeline family) in
structure Logged (st : Schedule) : Prop where
  returned : ∀ stage, .returned stage ∈ st.log → stage.name ∈ st.dispatched
  finished : ∀ name, .finished name ∈ st.log ↔ name ∈ st.completed
  once : st.log.Nodup
  behind : ∀ (i : ℕ) stage, st.log[i]? = some (.returned stage) →
    ∀ name ∈ effectiveDeps pipeline family stage, .finished name ∈ st.log.take i

theorem readyStages_nodup (hnames : (pipeline.map (·.name)).Nodup)
    (completed dispatched : Finset String) :
    (readyStages pipeline family completed dispatched).Nodup :=
  ((List.Nodup.of_map _ hnames).filter _).filter _

theorem take_of_append {log new : List Event} {i : ℕ} {e : Event} (h : (log ++ new)[i]? = some e) :
    (log[i]? = some e ∧ (log ++ new).take i = log.take i) ∨
      (e ∈ new ∧ log ⊆ (log ++ new).take i) := by
  rcases Nat.lt_or_ge i log.length with hlt | hge
  · rw [List.getElem?_append_left hlt] at h
    exact Or.inl ⟨h, List.take_append_of_le_length hlt.le⟩
  · rw [List.getElem?_append_right hge] at h
    refine Or.inr ⟨List.mem_of_getElem? h, ?_⟩
    rw [List.take_append, List.take_of_length_le hge]
    exact List.subset_append_left _ _

theorem schedule_logged (hnames : (pipeline.map (·.name)).Nodup) {st st' : Schedule}
    (h : Logged pipeline family st) (hexec : exec pipeline family st .schedule = some st') :
    Logged pipeline family st' := by
  cases hexec
  constructor
  · intro stage hmem
    rcases List.mem_append.mp hmem with hmem | hmem
    · exact Finset.mem_union_left _ (h.returned stage hmem)
    · obtain ⟨stage', hready, heq⟩ := List.mem_map.mp hmem
      cases heq
      exact Finset.mem_union_right _ (mem_namesOf.mpr ⟨stage, hready, rfl⟩)
  · intro name
    simp [h.finished name]
  · apply h.once.append
    · apply (readyStages_nodup hnames st.completed st.dispatched).map
      intro s s' heq
      exact Event.returned.inj heq
    · intro e hlog hnew
      obtain ⟨stage, hready, rfl⟩ := List.mem_map.mp hnew
      obtain ⟨-, ⟨-, hfresh⟩, -⟩ := mem_readyStages.mp hready
      exact hfresh (h.returned stage hlog)
  · intro i stage hi name hname
    rcases take_of_append hi with ⟨hold, htake⟩ | ⟨hnew, htake⟩
    · rw [htake]
      exact h.behind i stage hold name hname
    · obtain ⟨stage', hready, heq⟩ := List.mem_map.mp hnew
      cases heq
      obtain ⟨-, -, hdeps⟩ := mem_readyStages.mp hready
      exact htake ((h.finished name).mpr (hdeps hname))

theorem finish_logged {st st' : Schedule} {name : String} (h : Logged pipeline family st)
    (hexec : exec pipeline family st (.finish name) = some st') : Logged pipeline family st' := by
  unfold exec at hexec
  rw [Option.ite_none_right_eq_some] at hexec
  obtain ⟨⟨-, hopen⟩, hst⟩ := hexec
  cases hst
  constructor
  · intro stage hmem
    exact h.returned stage (by simpa using hmem)
  · intro other
    simp [h.finished other, or_comm]
  · apply h.once.append (List.nodup_singleton _)
    intro e hlog hnew
    rw [List.mem_singleton] at hnew
    subst hnew
    exact hopen ((h.finished name).mp hlog)
  · intro i stage hi dep hdep
    rcases take_of_append hi with ⟨hold, htake⟩ | ⟨hnew, -⟩
    · rw [htake]
      exact h.behind i stage hold dep hdep
    · simp at hnew

theorem reached_logged (hnames : (pipeline.map (·.name)).Nodup) {st : Schedule}
    (h : Reached pipeline family st) : Logged pipeline family st := by
  apply h.invariant
  · rintro st rfl
    exact ⟨by simp, by simp, List.nodup_nil, by simp⟩
  · intro st st' move hst _ hexec
    cases move with
    | schedule => exact schedule_logged hnames hst hexec
    | finish name => exact finish_logged hst hexec

/-- Any error but the one of the last check. -/
def NoDeadlock (e : PipelineError) : Prop := ∀ family stuck, e ≠ .deadlock family stuck

theorem checkStage_raises (names : Finset String) (stage : Stage) :
    RaisesOnly NoDeadlock (checkStage names stage) := by
  unfold checkStage
  simp only
  split_ifs
  · exact .error (by simp [NoDeadlock])
  · exact .error (by simp [NoDeadlock])
  · exact .error (by simp [NoDeadlock])
  · exact .ok _

theorem checkFamily_raises (hnames : (pipeline.map (·.name)).Nodup)
    (hcheck : declarationOrder ∅ pipeline = .ok ()) (family : FormatFamily) :
    RaisesOnly NoDeadlock (checkFamily pipeline family) := by
  have hcomplete : isComplete pipeline family (simulate pipeline family ∅) = true :=
    simulate_complete hnames hcheck ∅
  unfold checkFamily
  simp only [if_pos hcomplete]
  split_ifs
  · exact .error (by simp [NoDeadlock])
  · exact .ok _
  · exact .error (by simp [NoDeadlock])

theorem validatePipeline_raises (hnames : (pipeline.map (·.name)).Nodup)
    (hcheck : declarationOrder ∅ pipeline = .ok ()) :
    RaisesOnly NoDeadlock (validatePipeline pipeline) := by
  apply RaisesOnly.bind
  · exact .forM fun stage _ => checkStage_raises (namesOf pipeline) stage
  · intro _ _
    rw [hcheck]
    exact .forM fun family _ => checkFamily_raises hnames hcheck family

variable (pipeline family) in
/-- The log of a run: no stage comes twice, and each comes behind the completions it waits for. -/
structure ReturnsInOrder (log : List Event) : Prop where
  once : ∀ stage, log.count (.returned stage) ≤ 1
  behind : ∀ (i : ℕ) stage, log[i]? = some (.returned stage) →
    ∀ name ∈ effectiveDeps pipeline family stage, .finished name ∈ log.take i

/-- If every stage is declared behind its dependencies, each family's run returns a stage at most
    once, behind what it depends on, and never stalls; so the simulation ends with every stage of
    the family completed, and the deadlock it looks for is never found. -/
theorem declaration_order_implies_progress (hnames : (pipeline.map (·.name)).Nodup)
    (hcheck : declarationOrder ∅ pipeline = .ok ()) (family : FormatFamily) :
    (∀ st, Reached pipeline family st →
        ReturnsInOrder pipeline family st.log ∧
          (st.dispatched ⊆ st.completed → isComplete pipeline family st.completed = false →
            readyStages pipeline family st.completed st.dispatched ≠ [])) ∧
      isComplete pipeline family (simulate pipeline family ∅) = true ∧
      ∀ stuck, validatePipeline pipeline ≠ .error (.deadlock family stuck) := by
  refine ⟨fun st h => ⟨?_, ?_⟩, simulate_complete hnames hcheck ∅, ?_⟩
  · have hlogged := reached_logged hnames h
    exact ⟨fun stage => List.nodup_iff_count_le_one.mp hlogged.once _, hlogged.behind⟩
  · intro hidle hmissing
    obtain ⟨stage, hstage, hfamily, hnew, hdeps⟩ := exists_next hnames hcheck hmissing
    apply List.ne_nil_of_mem
    exact mem_readyStages.mpr
      ⟨⟨hstage, hfamily⟩, ⟨hnew, fun hdispatched => hnew (hidle hdispatched)⟩, hdeps⟩
  · intro stuck herror
    exact validatePipeline_raises hnames hcheck _ herror family stuck rfl

end

theorem shipped_pipeline_progresses :
    isComplete PIPELINE .pdf (simulate PIPELINE .pdf ∅) = true ∧
      ∃ st, Reached PIPELINE .pdf st ∧ st.completed = {"detect"} ∧
        readyStages PIPELINE .pdf st.completed st.dispatched ≠ [] := by
  have h := declaration_order_implies_progress pipeline_names_nodup (by decide +kernel) .pdf
  have hreached : ∃ st, run (exec PIPELINE .pdf) {} [.schedule, .finish "detect"] = some st ∧
      st.dispatched ⊆ st.completed ∧ isComplete PIPELINE .pdf st.completed = false ∧
      st.completed = {"detect"} := by
    refine ⟨_, rfl, ?_⟩
    decide +kernel
  obtain ⟨st, hrun, hidle, hmissing, hcompleted⟩ := hreached
  have hst : Reached PIPELINE .pdf st := reachable_of_run (.start rfl) (fun _ _ _ => trivial) hrun
  exact ⟨h.2.1, st, hst, hcompleted, (h.1 st hst).2 hidle hmissing⟩

/-- The module validates its own pipeline when it is loaded. -/
example : validatePipeline PIPELINE = .ok () := by decide +kernel

end Ragent.PipelineProgress
