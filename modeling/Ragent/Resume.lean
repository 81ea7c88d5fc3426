import Ragent.Runner

set_option autoImplicit false

/-!
# Resuming a run

`resume_plan` of `ragent/pipeline/runner.py` on what the two stores have kept of a history.
-/
namespace Ragent.Resume
open Formats Stages StageStores Runner

/-- `resume_plan`, with `none` for the `KeyError` of a name that is no stage. -/
def resumePlan (pipeline : List Stage) (family : FormatFamily) (completed dispatched : Finset String) :
    Option (List Stage) :=
  let inFlight := dispatched \ completed
  let ready := readyStages pipeline family completed dispatched
  ((sortedNames inFlight).mapM (stageByName pipeline)).map (· ++ ready)

section
variable {pipeline : List Stage} {family : FormatFamily} {completed dispatched : Finset String}

theorem mapM_stageByName (hnames : (pipeline.map (·.name)).Nodup) {names : List String}
    (h : ∀ name ∈ names, ∃ stage ∈ pipeline, stage.name = name) :
    ∃ stages, names.mapM (stageByName pipeline) = some stages ∧ stages.map (·.name) = names ∧
      stages ⊆ pipeline := by
  induction names with
  | nil => exact ⟨[], rfl, rfl, List.nil_subset _⟩
  | cons name names ih =>
    obtain ⟨stages, hstages, hmap, hsub⟩ := ih fun n hn => h n (List.mem_cons_of_mem name hn)
    obtain ⟨stage, hstage, rfl⟩ := h name List.mem_cons_self
    refine ⟨stage :: stages, ?_, by rw [List.map_cons, hmap], List.cons_subset.mpr ⟨hstage, hsub⟩⟩
    rw [List.mapM_cons, stageByName_of_mem hnames hstage, hstages]
    rfl

theorem resumePlan_spec (hnames : (pipeline.map (·.name)).Nodup)
    (hknown : ∀ name ∈ dispatched, ∃ stage ∈ pipeline, stage.name = name) :
    ∃ plan, resumePlan pipeline family completed dispatched = some plan ∧ plan.Nodup ∧
      ∀ stage, stage ∈ plan ↔
        (stage ∈ pipeline ∧ stage.name ∈ dispatched \ completed) ∨
          stage ∈ readyStages pipeline family completed dispatched := by
  obtain ⟨stages, hstages, hmap, hsub⟩ := @mapM_stageByName pipeline hnames
    (sortedNames (dispatched \ completed)) fun name hname =>
      hknown name (Finset.mem_sdiff.mp (mem_sortedNames.mp hname)).1
  have hflight : ∀ stage, stage ∈ stages ↔ stage ∈ pipeline ∧ stage.name ∈ dispatched \ completed := by
    intro stage
    rw [← mem_sortedNames, ← hmap]
    constructor
    · intro h
      exact ⟨hsub h, List.mem_map_of_mem h⟩
    · rintro ⟨hstage, hname⟩
      obtain ⟨stage', hmem, heq⟩ := List.mem_map.mp hname
      rwa [← List.inj_on_of_nodup_map hnames (hsub hmem) hstage heq]
  refine ⟨_, by rw [resumePlan, hstages]; rfl, ?_, ?_⟩
  · apply List.Nodup.append
    · apply List.Nodup.of_map (·.name)
      rw [hmap]
      exact sortedNames_nodup _
    · exact ((List.Nodup.of_map _ hnames).filter _).filter _
    · intro stage hflighted hready
      have hin := (Finset.mem_sdiff.mp ((hflight stage).mp hflighted).2).1
      exact (mem_readyStages.mp hready).2.1.2 hin
  · intro stage
    rw [List.mem_append, hflight]

end

section
variable (family : FormatFamily) (snapshot : StageSnapshot) (succeeded failed : String → Prop)

/-- The plan is there, holds no stage twice, and of the family's stages exactly those that have
    neither succeeded nor failed for good and whose dependencies have all succeeded. -/
def ResumesRightly : Prop :=
  ∃ plan, resumePlan PIPELINE family snapshot.completed snapshot.dispatched = some plan ∧
    plan.Nodup ∧ ∀ stage ∈ stagesFor PIPELINE family, stage ∈ plan ↔
      ¬ succeeded stage.name ∧ ¬ failed stage.name ∧
        ∀ dep ∈ effectiveDeps PIPELINE family stage, succeeded dep

/-- How a snapshot stands to the history behind it. -/
structure Shows : Prop where
  completed : ∀ name ∈ snapshot.completed, succeeded name
  recorded : ∀ name, succeeded name ∨ failed name → name ∈ snapshot.dispatched
  known : ∀ name ∈ snapshot.dispatched, ∃ stage ∈ stagesFor PIPELINE family, stage.name = name ∧
    ∀ dep ∈ effectiveDeps PIPELINE family stage, succeeded dep

variable {family snapshot succeeded failed}

theorem Shows.driven (h : Shows family snapshot succeeded failed) {stage : Stage}
    (hstage : stage ∈ stagesFor PIPELINE family) (hrow : stage.name ∈ snapshot.dispatched) :
    ∀ dep ∈ effectiveDeps PIPELINE family stage, succeeded dep := by
  obtain ⟨stage', hstage', hname, hdeps⟩ := h.known stage.name hrow
  have hsame : stage' = stage := List.inj_on_of_nodup_map pipeline_names_nodup
    (mem_stagesFor.mp hstage').1 (mem_stagesFor.mp hstage).1 hname
  exact hsame ▸ hdeps

/-- The plan is right exactly if all that has succeeded or failed for good still shows as
    completed. -/
theorem Shows.resumesRightly_iff (h : Shows family snapshot succeeded failed) :
    ResumesRightly family snapshot succeeded failed ↔
      ∀ stage ∈ stagesFor PIPELINE family, succeeded stage.name ∨ failed stage.name →
        stage.name ∈ snapshot.completed := by
  have hknown : ∀ name ∈ snapshot.dispatched, ∃ stage ∈ PIPELINE, stage.name = name := by
    intro name hname
    obtain ⟨stage, hstage, heq, -⟩ := h.known name hname
    exact ⟨stage, (mem_stagesFor.mp hstage).1, heq⟩
  obtain ⟨plan, hplan, hnodup, hmem⟩ :=
    @resumePlan_spec PIPELINE family snapshot.completed snapshot.dispatched pipeline_names_nodup
      hknown
  constructor
  · rintro ⟨plan', hplan', -, hright⟩ stage hstage hdone
    rw [hplan, Option.some.injEq] at hplan'
    subst hplan'
    by_contra hopen
    have hin : stage ∈ plan := (hmem stage).mpr (Or.inl ⟨(mem_stagesFor.mp hstage).1,
      Finset.mem_sdiff.mpr ⟨h.recorded _ hdone, hopen⟩⟩)
    obtain ⟨hnot, hnot', -⟩ := (hright stage hstage).mp hin
    exact hdone.elim hnot hnot'
  · intro hdone
    refine ⟨plan, hplan, hnodup, fun stage hstage => ?_⟩
    have hopen : stage.name ∉ snapshot.completed ↔
        ¬ succeeded stage.name ∧ ¬ failed stage.name := by
      rw [← not_or, not_iff_not]
      exact ⟨fun hin => Or.inl (h.completed _ hin), hdone stage hstage⟩
    -- what a stage depends on is on the family's path too
    have hdeps : effectiveDeps PIPELINE family stage ⊆ snapshot.completed ↔
        ∀ dep ∈ effectiveDeps PIPELINE family stage, succeeded dep := by
      constructor
      · exact fun hsub dep hdep => h.completed dep (hsub hdep)
      · intro hall dep hdep
        obtain ⟨stage', hpath, hfamily, rfl⟩ := mem_stageNamesFor.mp (Finset.mem_inter.mp hdep).2
        exact hdone stage' (mem_stagesFor.mpr ⟨hpath, hfamily⟩) (Or.inl (hall _ hdep))
    rw [hmem, mem_readyStages, Finset.mem_sdiff, ← and_assoc (a := ¬ succeeded stage.name), ← hopen,
      ← hdeps]
    obtain ⟨hpath, hfamily⟩ := mem_stagesFor.mp hstage
    by_cases hrow : stage.name ∈ snapshot.dispatched
    · have hdriven := hdeps.mpr (h.driven hstage hrow)
      simp [hpath, hfamily, hrow, hdriven]
    · simp [hpath, hfamily, hrow]

end

section
variable {RunId : Type} [DecidableEq RunId]

/-- The histories of run `r` that consumers can produce among calls on other runs: a stage is begun
    for a message that the upload or a follower's reservation has put there, once or again; a stage
    that was begun ends one way or the other, once or again; and the followers reserved are those
    that are ready at a snapshot taken before. -/
inductive ConsumerHistory (snapshotOf : List (StoreCall RunId) → StageSnapshot) (r : RunId)
    (family : FormatFamily) : List (StoreCall RunId) → Prop
  | start : ConsumerHistory snapshotOf r family []
  | other {calls : List (StoreCall RunId)} {c : StoreCall RunId}
      (h : ConsumerHistory snapshotOf r family calls) (hother : c.runOf ≠ r) :
      ConsumerHistory snapshotOf r family (calls ++ [c])
  | begin {calls : List (StoreCall RunId)} {stage : String} (attempt : ℕ)
      (h : ConsumerHistory snapshotOf r family calls)
      (hmessage : stage = "detect" ∨ ∃ stages, .markDispatched r stages ∈ calls ∧ stage ∈ stages) :
      ConsumerHistory snapshotOf r family (calls ++ [.beginStage r stage attempt])
  | complete {calls : List (StoreCall RunId)} {stage : String} {attempt : ℕ}
      (h : ConsumerHistory snapshotOf r family calls)
      (hbegun : .beginStage r stage attempt ∈ calls) :
      ConsumerHistory snapshotOf r family (calls ++ [.completeStage r stage])
  | fail {calls : List (StoreCall RunId)} {stage : String} {attempt : ℕ} (error : String)
      (permanent : Bool) (h : ConsumerHistory snapshotOf r family calls)
      (hbegun : .beginStage r stage attempt ∈ calls) :
      ConsumerHistory snapshotOf r family (calls ++ [.failStage r stage error permanent])
  | reserve {calls early : List (StoreCall RunId)} (h : ConsumerHistory snapshotOf r family calls)
      (hearly : early <+: calls) :
      ConsumerHistory snapshotOf r family (calls ++ [.markDispatched r
        ((readyStages PIPELINE family (snapshotOf early).completed
          (snapshotOf early).dispatched).map (·.name))])

def Succeeded (r : RunId) (calls : List (StoreCall RunId)) (s : String) : Prop :=
  ∃ c ∈ calls, c.Completes r s

def Failed (r : RunId) (calls : List (StoreCall RunId)) (s : String) : Prop :=
  ∃ c ∈ calls, c.FailsPermanently r s

def Recorded (r : RunId) (calls : List (StoreCall RunId)) (s : String) : Prop :=
  ∃ c ∈ calls, c.Announces r s ∨ c.FailsTransiently r s

variable {r : RunId} {family : FormatFamily} {calls : List (StoreCall RunId)}
  {snapshotOf : List (StoreCall RunId) → StageSnapshot}

def Driven (r : RunId) (family : FormatFamily) (calls : List (StoreCall RunId)) (s : String) : Prop :=
  ∃ stage ∈ stagesFor PIPELINE family, stage.name = s ∧
    ∀ dep ∈ effectiveDeps PIPELINE family stage, Succeeded r calls dep

omit [DecidableEq RunId]

theorem Driven.snoc {s : String} (h : Driven r family calls s) (c : StoreCall RunId) :
    Driven r family (calls ++ [c]) s := by
  obtain ⟨stage, hstage, hname, hdeps⟩ := h
  refine ⟨stage, hstage, hname, fun dep hdep => ?_⟩
  obtain ⟨d, hd, hcompletes⟩ := hdeps dep hdep
  exact ⟨d, List.mem_append_left _ hd, hcompletes⟩

theorem recorded_snoc {c : StoreCall RunId} {s : String} :
    Recorded r (calls ++ [c]) s ↔
      Recorded r calls s ∨ (c.Announces r s ∨ c.FailsTransiently r s) := by
  simp only [Recorded, List.mem_append, List.mem_singleton, or_and_right, exists_or, exists_eq_left]

theorem recorded_of_begun {stage : String} {attempt : ℕ}
    (h : .beginStage r stage attempt ∈ calls) : Recorded r calls stage :=
  ⟨_, h, Or.inl ⟨rfl, rfl⟩⟩

theorem detect_driven (r : RunId) (family : FormatFamily) (calls : List (StoreCall RunId)) :
    Driven r family calls "detect" := by
  have hroot : ∃ stage ∈ stagesFor PIPELINE family, stage.name = "detect" ∧
      effectiveDeps PIPELINE family stage = ∅ := by
    cases family <;> decide +kernel
  obtain ⟨stage, hstage, hname, hdeps⟩ := hroot
  refine ⟨stage, hstage, hname, fun dep hdep => ?_⟩
  simp [hdeps] at hdep

/-- A stage gets a row only on the run's path and behind all it depends on. -/
theorem ConsumerHistory.driven
    (hsnapshot : ∀ calls, ∀ s ∈ (snapshotOf calls).completed, Succeeded r calls s)
    (h : ConsumerHistory snapshotOf r family calls) {s : String} (hs : Recorded r calls s) :
    Driven r family calls s := by
  induction h generalizing s with
  | start =>
    obtain ⟨c, hc, -⟩ := hs
    simp at hc
  | @other calls c _ hother ih =>
    apply Driven.snoc
    rcases recorded_snoc.mp hs with hold | hnew
    · exact ih hold
    · apply absurd _ hother
      cases c <;> simp_all [StoreCall.Announces, StoreCall.FailsTransiently, StoreCall.runOf]
  | @begin calls stage attempt _ hmessage ih =>
    apply Driven.snoc
    rcases recorded_snoc.mp hs with hold | ⟨-, rfl⟩ | hnone
    · exact ih hold
    · rcases hmessage with rfl | ⟨stages, hmarked, hstage⟩
      · exact detect_driven r family calls
      · exact ih ⟨_, hmarked, Or.inl ⟨rfl, hstage⟩⟩
    · cases hnone
  | @complete calls stage attempt _ hbegun ih =>
    apply Driven.snoc
    rcases recorded_snoc.mp hs with hold | ⟨-, rfl⟩ | hnone
    · exact ih hold
    · exact ih (recorded_of_begun hbegun)
    · cases hnone
  | @fail calls stage attempt error permanent _ hbegun ih =>
    apply Driven.snoc
    rcases recorded_snoc.mp hs with hold | ⟨-, rfl, -⟩ | ⟨-, rfl, -⟩
    · exact ih hold
    · exact ih (recorded_of_begun hbegun)
    · exact ih (recorded_of_begun hbegun)
  | @reserve calls early _ hearly ih =>
    rcases recorded_snoc.mp hs with hold | ⟨-, hready⟩ | hnone
    · exact (ih hold).snoc _
    · obtain ⟨stage, hstage, rfl⟩ := List.mem_map.mp hready
      obtain ⟨hpath, -, hdeps⟩ := mem_readyStages.mp hstage
      apply Driven.snoc
      refine ⟨stage, mem_stagesFor.mpr hpath, rfl, fun dep hdep => ?_⟩
      obtain ⟨c, hc, hcompletes⟩ := hsnapshot early dep (hdeps hdep)
      exact ⟨c, hearly.subset hc, hcompletes⟩
    · cases hnone

theorem ConsumerHistory.shows
    (hsnapshot : ∀ calls, ∀ s ∈ (snapshotOf calls).completed, Succeeded r calls s)
    (hrecorded : ∀ s ∈ (snapshotOf calls).dispatched, Recorded r calls s)
    (hdispatched : ∀ s, Succeeded r calls s ∨ Failed r calls s →
      s ∈ (snapshotOf calls).dispatched)
    (h : ConsumerHistory snapshotOf r family calls) :
    Shows family (snapshotOf calls) (Succeeded r calls) (Failed r calls) where
  completed := hsnapshot calls
  recorded := hdispatched
  known s hs := h.driven hsnapshot (hrecorded s hs)

theorem announced_of_done {s : String} (h : Succeeded r calls s ∨ Failed r calls s) :
    ∃ c ∈ calls, c.Announces r s := by
  rcases h with ⟨c, hc, hcompletes⟩ | ⟨c, hc, hfails⟩
  · exact ⟨c, hc, announces_of_completes hcompletes⟩
  · refine ⟨c, hc, ?_⟩
    cases c <;> simp_all [StoreCall.FailsPermanently, StoreCall.Announces]

variable [DecidableEq RunId] (known : RunId → Bool)

theorem postgres_shows (hr : known r = true)
    (h : ConsumerHistory (fun calls => (PostgresStageStore.run known calls).snapshot r) r family
      calls) :
    Shows family ((PostgresStageStore.run known calls).snapshot r) (Succeeded r calls)
      (Failed r calls) := by
  have hdispatched : ∀ s, s ∈ ((PostgresStageStore.run known calls).snapshot r).dispatched ↔
      Recorded r calls s := by
    intro s
    obtain ⟨-, hsome, hskipped⟩ := PostgresStageStore.run_status hr calls s
    rw [PostgresStageStore.snapshot, StageRows.mem_dispatched, Recorded, ← hsome,
      Option.isSome_iff_exists]
    apply exists_congr
    intro status
    exact and_iff_left_of_imp fun h hskip => hskipped (hskip ▸ h)
  apply ConsumerHistory.shows _ _ _ h
  · intro calls s hs
    exact ((PostgresStageStore.run_status hr calls s).1.mp (StageRows.mem_completed.mp hs)).1
  · exact fun s => (hdispatched s).mp
  · intro s hs
    obtain ⟨c, hc, hannounces⟩ := announced_of_done hs
    exact (hdispatched s).mpr ⟨c, hc, Or.inl hannounces⟩

theorem reference_shows
    (h : ConsumerHistory (fun calls => (InMemoryStageStore.run calls).snapshot r) r family calls) :
    Shows family ((InMemoryStageStore.run calls).snapshot r) (Succeeded r calls)
      (Failed r calls) := by
  apply ConsumerHistory.shows _ _ _ h
  · exact fun calls s hs => (InMemoryStageStore.run_sets calls r s).1.mp hs
  · intro s hs
    obtain ⟨c, hc, hannounces⟩ := (InMemoryStageStore.run_sets calls r s).2.mp hs
    exact ⟨c, hc, Or.inl hannounces⟩
  · intro s hs
    exact (InMemoryStageStore.run_sets calls r s).2.mpr (announced_of_done hs)

theorem postgres_resumes_iff (hr : known r = true)
    (h : ConsumerHistory (fun calls => (PostgresStageStore.run known calls).snapshot r) r family
      calls) :
    ResumesRightly family ((PostgresStageStore.run known calls).snapshot r) (Succeeded r calls)
        (Failed r calls) ↔
      ∀ stage ∈ stagesFor PIPELINE family,
        Succeeded r calls stage.name ∨ Failed r calls stage.name →
          Succeeded r calls stage.name ∧ Recompleted r stage.name calls := by
  rw [(postgres_shows known hr h).resumesRightly_iff]
  apply forall₂_congr
  intro stage _
  rw [PostgresStageStore.snapshot, StageRows.mem_completed,
    (PostgresStageStore.run_status hr calls stage.name).1]
  rfl

/-- From the table the plan is right exactly if every stage that ever succeeded or failed for good
    has succeeded and is not left reopened; from the reference store, exactly if every stage that
    ever failed for good has succeeded as well. -/
theorem resume_right_iff (r : RunId) (family : FormatFamily) (calls : List (StoreCall RunId))
    (hr : known r = true) :
    (ConsumerHistory (fun calls => (PostgresStageStore.run known calls).snapshot r) r family calls →
      (ResumesRightly family ((PostgresStageStore.run known calls).snapshot r) (Succeeded r calls)
          (Failed r calls) ↔
        ∀ stage ∈ stagesFor PIPELINE family,
          Succeeded r calls stage.name ∨ Failed r calls stage.name →
            Succeeded r calls stage.name ∧ Recompleted r stage.name calls)) ∧
      (ConsumerHistory (fun calls => (InMemoryStageStore.run calls).snapshot r) r family calls →
        (ResumesRightly family ((InMemoryStageStore.run calls).snapshot r) (Succeeded r calls)
            (Failed r calls) ↔
          ∀ stage ∈ stagesFor PIPELINE family, Failed r calls stage.name →
            Succeeded r calls stage.name)) := by
  constructor
  · exact postgres_resumes_iff known hr
  · intro h
    rw [(reference_shows h).resumesRightly_iff]
    apply forall₂_congr
    intro stage _
    have hcompleted : stage.name ∈ ((InMemoryStageStore.run calls).snapshot r).completed ↔
        Succeeded r calls stage.name := (InMemoryStageStore.run_sets calls r stage.name).1
    rw [hcompleted]
    constructor
    · exact fun hdone hfailed => hdone (Or.inr hfailed)
    · exact fun hdone h => h.elim id hdone

end

def interrupted : List (StoreCall ℕ) :=
  [.beginStage 0 "detect" 1, .completeStage 0 "detect", .markDispatched 0 ["parse"],
    .beginStage 0 "parse" 1]

theorem interrupted_history {snapshotOf : List (StoreCall ℕ) → StageSnapshot}
    (hready : (readyStages PIPELINE .pdf
        (snapshotOf [.beginStage 0 "detect" 1, .completeStage 0 "detect"]).completed
        (snapshotOf [.beginStage 0 "detect" 1, .completeStage 0 "detect"]).dispatched).map (·.name) =
      ["parse"]) : ConsumerHistory snapshotOf 0 .pdf interrupted := by
  have hbegin : ConsumerHistory snapshotOf 0 .pdf [.beginStage 0 "detect" 1] :=
    .begin 1 .start (Or.inl rfl)
  have hcomplete : ConsumerHistory snapshotOf 0 .pdf
      [.beginStage 0 "detect" 1, .completeStage 0 "detect"] :=
    hbegin.complete (List.mem_singleton_self _)
  have hreserve := hcomplete.reserve (List.prefix_refl _)
  rw [hready] at hreserve
  exact .begin 1 hreserve (Or.inr ⟨["parse"], by simp, by simp⟩)

theorem interrupted_is_resumed :
    ResumesRightly .pdf ((PostgresStageStore.run (fun _ => true) interrupted).snapshot 0)
        (Succeeded 0 interrupted) (Failed 0 interrupted) ∧
      ResumesRightly .pdf ((InMemoryStageStore.run interrupted).snapshot 0)
        (Succeeded 0 interrupted) (Failed 0 interrupted) := by
  have hsucceeded : ∀ s, Succeeded 0 interrupted s → s = "detect" := by
    rintro s ⟨c, hc, hcompletes⟩
    simp only [interrupted, List.mem_cons, List.not_mem_nil, or_false] at hc
    rcases hc with rfl | rfl | rfl | rfl <;> simp_all [StoreCall.Completes]
  have hfailed : ∀ s, ¬ Failed 0 interrupted s := by
    rintro s ⟨c, hc, hfails⟩
    simp only [interrupted, List.mem_cons, List.not_mem_nil, or_false] at hc
    rcases hc with rfl | rfl | rfl | rfl <;> cases hfails
  have h := resume_right_iff (fun _ => true) 0 .pdf interrupted rfl
  constructor
  · apply (h.1 (interrupted_history (by decide +kernel))).mpr
    intro stage _ hdone
    rw [hsucceeded stage.name (hdone.resolve_right (hfailed _))]
    exact (@PostgresStageStore.run_status ℕ _ (fun _ => true) 0 rfl interrupted "detect").1.mp
      (by decide +kernel)
  · apply (h.2 (interrupted_history (by decide +kernel))).mpr
    intro stage _ hdone
    exact absurd hdone (hfailed _)

def condemned : List (StoreCall ℕ) :=
  [.beginStage 0 "detect" 1, .failStage 0 "detect" "PermanentError: encrypted" true]

/-- A stage that failed for good is in flight to `resume_plan`. -/
theorem condemned_is_resumed :
    ConsumerHistory (fun calls => (PostgresStageStore.run (fun _ => true) calls).snapshot 0) 0 .pdf
        condemned ∧
      ¬ ResumesRightly .pdf ((PostgresStageStore.run (fun _ => true) condemned).snapshot 0)
        (Succeeded 0 condemned) (Failed 0 condemned) := by
  have hbegin : ConsumerHistory
      (fun calls => (PostgresStageStore.run (fun _ => true) calls).snapshot 0) 0 .pdf
      [.beginStage 0 "detect" 1] := .begin 1 .start (Or.inl rfl)
  have hhistory := hbegin.fail "PermanentError: encrypted" true (List.mem_singleton_self _)
  refine ⟨hhistory, fun hright => ?_⟩
  have hfailed : Failed 0 condemned "detect" :=
    ⟨.failStage 0 "detect" "PermanentError: encrypted" true, by simp [condemned], rfl, rfl, rfl⟩
  have hdetect : ∃ stage ∈ stagesFor PIPELINE .pdf, stage.name = "detect" := by decide +kernel
  obtain ⟨stage, hstage, hname⟩ := hdetect
  rw [← hname] at hfailed
  have hcompleted := (postgres_shows (fun _ => true) rfl hhistory).resumesRightly_iff.mp hright stage
    hstage (Or.inr hfailed)
  rw [hname] at hcompleted
  revert hcompleted
  decide +kernel

end Ragent.Resume
