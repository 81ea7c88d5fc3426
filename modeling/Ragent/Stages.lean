import Mathlib.Data.Finset.Sort
import Mathlib.Data.String.Basic
import Ragent.Formats
import Ragent.Keyed

set_option autoImplicit false

/-!
# The ingest DAG

`ragent/pipeline/stages.py`, over an arbitrary pipeline where the source reads the module's own.
-/
namespace Ragent.Stages
open Formats Keyed

structure Stage where
  name : String
  families : List FormatFamily
  dependsOn : List String
  maxAttempts : ℕ := 3
  prefetch : ℕ := 4
  deriving DecidableEq, Repr

namespace Stage

def queue (s : Stage) : String := "ragent." ++ s.name

def routingKey (s : Stage) : String := "ingest." ++ s.name

def dlq (s : Stage) : String := "ragent." ++ s.name ++ ".dlq"

def appliesTo (s : Stage) (family : FormatFamily) : Bool := family ∈ s.families

end Stage

def paged : List FormatFamily := [.pdf, .image, .office, .web]

def allFamilies : List FormatFamily := [.pdf, .image, .office, .web, .flow]

def PIPELINE : List Stage :=
  [{ name := "detect", families := allFamilies, dependsOn := [], prefetch := 16 },
    { name := "convert", families := [.office, .web], dependsOn := ["detect"], maxAttempts := 2,
      prefetch := 1 },
    { name := "parse", families := paged, dependsOn := ["detect", "convert"], prefetch := 2 },
    { name := "parse_flow", families := [.flow], dependsOn := ["detect"], prefetch := 8 },
    { name := "ocr", families := paged, dependsOn := ["parse"], prefetch := 1 },
    { name := "tables", families := paged, dependsOn := ["parse", "ocr"], prefetch := 2 },
    { name := "figures", families := paged, dependsOn := ["parse", "ocr"], maxAttempts := 4 },
    { name := "chunk", families := allFamilies, dependsOn := ["tables", "figures", "parse_flow"],
      prefetch := 8 },
    { name := "contextualize", families := allFamilies, dependsOn := ["chunk"], maxAttempts := 5,
      prefetch := 8 },
    { name := "embed", families := allFamilies, dependsOn := ["contextualize"], maxAttempts := 5 }]

def RETRY_DELAYS_MS : List ℕ := [5000, 30000, 300000]

/-- `STAGES_BY_NAME.get(name)` -/
def stageByName (pipeline : List Stage) (name : String) : Option Stage :=
  pipeline.find? (·.name = name)

/-- `sorted` -/
def sortedNames (names : Finset String) : List String := names.sort

theorem mem_sortedNames {names : Finset String} {name : String} :
    name ∈ sortedNames names ↔ name ∈ names :=
  Finset.mem_sort _

theorem sortedNames_nodup (names : Finset String) : (sortedNames names).Nodup :=
  Finset.sort_nodup _ _

section
variable (pipeline : List Stage) (family : FormatFamily)

def stagesFor : List Stage := pipeline.filter (·.appliesTo family)

def stageNamesFor : Finset String := ((stagesFor pipeline family).map (·.name)).toFinset

def effectiveDeps (stage : Stage) : Finset String :=
  stage.dependsOn.toFinset ∩ stageNamesFor pipeline family

def readyStages (completed dispatched : Finset String) : List Stage :=
  (stagesFor pipeline family).filter fun stage =>
    stage.name ∉ completed ∪ dispatched ∧ effectiveDeps pipeline family stage ⊆ completed

def isComplete (completed : Finset String) : Bool := stageNamesFor pipeline family ⊆ completed

/-- `attempt` counts from 1; the source raises for less. -/
def retryDelayMs (delays : List ℕ) (stage : Stage) (attempt : ℕ) : Option ℕ :=
  if stage.maxAttempts ≤ attempt then none
  else some (delays.getD (min (attempt - 1) (delays.length - 1)) 0)

variable {pipeline family}

theorem mem_stagesFor {stage : Stage} :
    stage ∈ stagesFor pipeline family ↔ stage ∈ pipeline ∧ family ∈ stage.families := by
  simp [stagesFor, Stage.appliesTo]

theorem mem_stageNamesFor {name : String} :
    name ∈ stageNamesFor pipeline family ↔
      ∃ stage ∈ pipeline, family ∈ stage.families ∧ stage.name = name := by
  simp only [stageNamesFor, List.mem_toFinset, List.mem_map, mem_stagesFor, and_assoc]

theorem mem_readyStages {completed dispatched : Finset String} {stage : Stage} :
    stage ∈ readyStages pipeline family completed dispatched ↔
      (stage ∈ pipeline ∧ family ∈ stage.families) ∧
        (stage.name ∉ completed ∧ stage.name ∉ dispatched) ∧
          effectiveDeps pipeline family stage ⊆ completed := by
  simp only [readyStages, List.mem_filter, mem_stagesFor, Finset.mem_union, not_or,
    decide_eq_true_eq]

theorem isComplete_iff {completed : Finset String} :
    isComplete pipeline family completed = true ↔
      ∀ stage ∈ pipeline, family ∈ stage.families → stage.name ∈ completed := by
  rw [isComplete, decide_eq_true_eq]
  constructor
  · intro h stage hstage hfamily
    exact h (mem_stageNamesFor.mpr ⟨stage, hstage, hfamily, rfl⟩)
  · intro h name hname
    obtain ⟨stage, hstage, hfamily, rfl⟩ := mem_stageNamesFor.mp hname
    exact h stage hstage hfamily

end

theorem stageByName_of_mem {pipeline : List Stage} (hnames : (pipeline.map (·.name)).Nodup)
    {stage : Stage} (h : stage ∈ pipeline) : stageByName pipeline stage.name = some stage := by
  exact find_key hnames h

theorem pipeline_names_nodup : (PIPELINE.map (·.name)).Nodup := by decide

end Ragent.Stages
