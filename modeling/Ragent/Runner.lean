import Ragent.Stages
import Ragent.StageStores

set_option autoImplicit false

/-!
# Messages and decisions

The envelope of `ragent/pipeline/messages.py` and the pure decisions of
`ragent/pipeline/runner.py`.
-/
namespace Ragent.Runner
open Formats Stages StageStores

/-- `from_bytes` refuses an attempt below 1. No consumer writes `meta`. -/
structure StageMessage where
  documentId : String
  runId : String
  stage : String
  family : FormatFamily
  pipelineVersion : String
  tenantId : String := "default"
  attempt : ℕ := 1
  traceId : String
  positive : 1 ≤ attempt := by decide
  deriving DecidableEq

namespace StageMessage

def withFamily (m : StageMessage) (family : FormatFamily) : StageMessage := { m with family := family }

def forStage (m : StageMessage) (stage : String) : StageMessage :=
  { m with stage := stage, attempt := 1, positive := le_refl 1 }

def retried (m : StageMessage) : StageMessage :=
  { m with attempt := m.attempt + 1, positive := Nat.le_add_left 1 m.attempt }

end StageMessage

/-- What the consumer reads off an exception; `permanent` is `isinstance(exc, _PERMANENT)`. -/
structure Exc where
  typeName : String
  text : String
  permanent : Bool
  deriving DecidableEq, Repr

def Exc.describe (exc : Exc) : String := exc.typeName ++ ": " ++ exc.text

inductive FailurePlan
  | retry (delayMs : ℕ) (exchange : String) (attempt : ℕ)
  | deadLetter (reason : String)
  deriving DecidableEq, Repr

/-- `tier_label` of `topology.py` -/
def tierLabel (delayMs : ℕ) : String :=
  if delayMs % 3600000 = 0 then toString (delayMs / 3600000) ++ "h"
  else if delayMs % 60000 = 0 then toString (delayMs / 60000) ++ "m"
  else if delayMs % 1000 = 0 then toString (delayMs / 1000) ++ "s"
  else toString delayMs ++ "ms"

def retryExchangeName (delayMs : ℕ) : String := "ragent.retry." ++ tierLabel delayMs

section
variable (pipeline : List Stage) (delays : List ℕ)

def planFailure (message : StageMessage) (exc : Exc) : FailurePlan :=
  match stageByName pipeline message.stage with
  | none => .deadLetter ("unknown stage '" ++ message.stage ++ "'")
  | some stage =>
    if exc.permanent then .deadLetter exc.describe
    else match retryDelayMs delays stage message.attempt with
      | none => .deadLetter ("exhausted " ++ toString stage.maxAttempts ++
          " attempts; last error " ++ exc.describe)
      | some delay => .retry delay (retryExchangeName delay) (message.attempt + 1)

def nextMessages (message : StageMessage) (snapshot : StageSnapshot) : List StageMessage :=
  (readyStages pipeline message.family snapshot.completed snapshot.dispatched).map
    fun stage => message.forStage stage.name

def documentReady (family : FormatFamily) (completed : Finset String) : Bool :=
  isComplete pipeline family completed

variable {pipeline}

theorem mem_nextMessages {message m : StageMessage} {snapshot : StageSnapshot} :
    m ∈ nextMessages pipeline message snapshot ↔
      ∃ stage ∈ readyStages pipeline message.family snapshot.completed snapshot.dispatched,
        m = message.forStage stage.name := by
  simp only [nextMessages, List.mem_map, eq_comm]

end
end Ragent.Runner
