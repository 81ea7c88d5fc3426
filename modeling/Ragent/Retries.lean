import Mathlib.Data.List.GetD
import Mathlib.Logic.Function.Iterate
import Ragent.BrokerTopology
import Ragent.GuardedRuns
import Ragent.Messages

set_option autoImplicit false

/-!
# Retries

`_publish`, `_handle_failure` and `_dead_letter` of `ragent/workers/run.py` against a broker on
which the topology is declared, and a message that fails again and again.
-/
namespace Ragent.Retries
open Amqp BrokerTopology GuardedRuns Messages PyJson Runner Stages

structure Delivery (F : Type) where
  message : Messages.StageMessage F
  headers : List (String × Json F)

def clipped (text : String) : String := String.ofList (text.toList.take 512)

structure State (F : Type) where
  stored : List (Stored (Delivery F)) := []
  /-- The times the messages have waited, in order. -/
  waited : List ℕ := []
  invocations : ℕ := 0

inductive Event
  | fail (i : ℕ) (exc : Exc)
  | expire (i : ℕ)

section
variable {F : Type} (pipeline : List Stage) (delays : List ℕ) (reprOf : Exc → String)
  (broker : Broker)

def publish (exchange : String) (message : Messages.StageMessage F)
    (headers : List (String × Json F)) : Option (List (Stored (Delivery F))) :=
  (stageByName pipeline message.stage).bind fun stage =>
    broker.publish exchange stage.routingKey
      ⟨message, ("x-trace-id", .str message.traceId) :: headers⟩

def deadLetter (message : Messages.StageMessage F) (reason : String) :
    Option (List (Stored (Delivery F))) :=
  publish pipeline broker DLX_EXCHANGE message [("x-death-reason", .str (clipped reason))]

def handleFailure (message : Messages.StageMessage F) (h : 1 ≤ message.attempt.val) (exc : Exc) :
    Option (List (Stored (Delivery F))) :=
  match planFailure pipeline delays (message.envelope h) exc with
  | .retry _ exchange attempt =>
    publish pipeline broker exchange message.retried
      [("x-retry-attempt", .int attempt), ("x-retry-reason", .str (clipped (reprOf exc)))]
  | .deadLetter reason => deadLetter pipeline broker message reason

/-- What is published takes the place of the message, which is acknowledged. Only work queues have a
    consumer, and no handler sees an attempt below 1. -/
def exec (s : State F) : Event → Option (State F)
  | .fail i exc => s.stored[i]?.bind fun m =>
    if h : m.queue ∈ pipeline.map (·.queue) ∧ 1 ≤ m.body.message.attempt.val then
      (handleFailure pipeline delays reprOf broker m.body.message h.2 exc).map fun copies =>
        { s with stored := s.stored.eraseIdx i ++ copies, invocations := s.invocations + 1 }
    else none
  | .expire i => s.stored[i]?.bind fun m =>
    (broker.argumentsOf m.queue).messageTtl.map fun ttl =>
      { s with stored := s.stored.eraseIdx i ++ broker.deadLetter m, waited := s.waited ++ [ttl] }

def Start (stage : Stage) (m : Messages.StageMessage F) (s : State F) : Prop :=
  (∃ headers, broker.publish INGEST_EXCHANGE stage.routingKey ⟨m, headers⟩ = some s.stored) ∧
    s.waited = [] ∧ s.invocations = 0

structure Backoff (delays : List ℕ) : Prop where
  nonempty : delays ≠ []
  increasing : delays.Pairwise (· < ·)
  positive : ∀ delay ∈ delays, 0 < delay

def delayAt (attempt : ℕ) : ℕ := delays.getD (min (attempt - 1) (delays.length - 1)) 0

variable {pipeline delays reprOf broker} {stage : Stage} {m : Messages.StageMessage F}

theorem delayAt_eq (h : delays ≠ []) (attempt : ℕ) :
    ∃ hlt : min (attempt - 1) (delays.length - 1) < delays.length,
      delayAt delays attempt = delays.get ⟨_, hlt⟩ := by
  have hpos := List.length_pos_of_ne_nil h
  have hlt : min (attempt - 1) (delays.length - 1) < delays.length := by omega
  exact ⟨hlt, List.getD_eq_getElem _ _ hlt⟩

theorem delayAt_mem (h : delays ≠ []) (attempt : ℕ) : delayAt delays attempt ∈ delays := by
  obtain ⟨hlt, heq⟩ := delayAt_eq h attempt
  rw [heq]
  exact List.get_mem _ _

theorem Backoff.nodup (h : Backoff delays) : delays.Nodup := h.increasing.imp ne_of_lt

theorem planFailure_of_left (hstage : stageByName pipeline m.stage = some stage)
    (h : 1 ≤ m.attempt.val) {exc : Exc} (hexc : exc.permanent = false)
    (hleft : m.attempt.val < stage.maxAttempts) :
    planFailure pipeline delays (m.envelope h) exc =
      .retry (delayAt delays m.attempt.val.toNat)
        (retryExchangeName (delayAt delays m.attempt.val.toNat)) (m.attempt.val.toNat + 1) := by
  have hattempts : ¬ stage.maxAttempts ≤ m.attempt.val.toNat := by omega
  have hdelay : retryDelayMs delays stage m.attempt.val.toNat =
      some (delayAt delays m.attempt.val.toNat) := if_neg hattempts
  have hstage' : stageByName pipeline (m.envelope h).stage = some stage := hstage
  have hdelay' : retryDelayMs delays stage (m.envelope h).attempt =
      some (delayAt delays m.attempt.val.toNat) := hdelay
  simp only [planFailure, hstage', hexc, hdelay']
  rfl

variable (delays) in
theorem planFailure_of_exhausted (hstage : stageByName pipeline m.stage = some stage)
    (h : 1 ≤ m.attempt.val) {exc : Exc}
    (hexhausted : exc.permanent = true ∨ stage.maxAttempts ≤ m.attempt.val) :
    ∃ reason, planFailure pipeline delays (m.envelope h) exc = .deadLetter reason := by
  have hstage' : stageByName pipeline (m.envelope h).stage = some stage := hstage
  by_cases hexc : exc.permanent = true
  · simp only [planFailure, hstage', hexc, if_true]
    exact ⟨_, rfl⟩
  · have hattempts : stage.maxAttempts ≤ (m.envelope h).attempt := by
      have hle := hexhausted.resolve_left hexc
      change stage.maxAttempts ≤ m.attempt.val.toNat
      omega
    have hdelay : retryDelayMs delays stage (m.envelope h).attempt = none := if_pos hattempts
    simp only [planFailure, hstage', hexc, hdelay]
    exact ⟨_, rfl⟩

section
variable (hdeclared : Declared (buildTopology pipeline delays) broker)
  (hpipeline : WellNamed pipeline) (hmem : stage ∈ pipeline) (hname : m.stage = stage.name)
  (h : 1 ≤ m.attempt.val) {exc : Exc}

include hpipeline hmem hname in
theorem stageByName_message : stageByName pipeline m.stage = some stage := by
  rw [hname]
  exact stageByName_of_mem hpipeline.nodup hmem

variable (reprOf) in
include hdeclared hpipeline hmem hname in
theorem handleFailure_of_left (hdelays : delays ≠ []) (hexc : exc.permanent = false)
    (hleft : m.attempt.val < stage.maxAttempts) :
    ∃ headers, handleFailure pipeline delays reprOf broker m h exc =
      some [⟨retryExchangeName (delayAt delays m.attempt.val.toNat), stage.routingKey,
        ⟨m.retried, headers⟩⟩] := by
  have hstage := stageByName_message hpipeline hmem hname
  have hstage' : stageByName pipeline m.retried.stage = some stage := hstage
  simp only [handleFailure, planFailure_of_left hstage h hexc hleft, publish, hstage',
    Option.bind_some, hdeclared.publish_retry (delayAt_mem hdelays _)]
  exact ⟨_, rfl⟩

variable (reprOf) in
include hdeclared hpipeline hmem hname in
theorem handleFailure_of_exhausted
    (hexhausted : exc.permanent = true ∨ stage.maxAttempts ≤ m.attempt.val) :
    ∃ headers, handleFailure pipeline delays reprOf broker m h exc =
      some [⟨stage.dlq, stage.routingKey, ⟨m, headers⟩⟩] := by
  have hstage := stageByName_message hpipeline hmem hname
  obtain ⟨reason, hplan⟩ := planFailure_of_exhausted delays hstage h hexhausted
  simp only [handleFailure, hplan, deadLetter, publish, hstage, Option.bind_some,
    hdeclared.publish_dlx hpipeline hmem]
  exact ⟨_, rfl⟩

end

def failed (m : Messages.StageMessage F) (k : ℕ) : Messages.StageMessage F :=
  Messages.StageMessage.retried^[k] m

/-- `max(1, max_attempts - attempt + 1)` -/
def invocationsLeft (stage : Stage) (m : Messages.StageMessage F) : ℤ :=
  max 1 (stage.maxAttempts - m.attempt.val + 1)

def InDeadLetterQueue (stage : Stage) (s : State F) : Prop :=
  ∃ copy, s.stored = [copy] ∧ copy.queue = stage.dlq

variable (pipeline delays reprOf broker) in
/-- A failed message waits in the queue of one delay and comes back to its stage. -/
def Returns (stage : Stage) (m : Messages.StageMessage F) (h : 1 ≤ m.attempt.val) (exc : Exc) :
    Prop :=
  ∃ delayMs ∈ delays, ∃ headers,
    retryDelayMs delays stage m.attempt.val.toNat = some delayMs ∧
    handleFailure pipeline delays reprOf broker m h exc =
      some [⟨retryExchangeName delayMs, stage.routingKey, ⟨m.retried, headers⟩⟩] ∧
    broker.deadLetter (M := Delivery F)
        ⟨retryExchangeName delayMs, stage.routingKey, ⟨m.retried, headers⟩⟩ =
      [⟨stage.queue, stage.routingKey, ⟨m.retried, headers⟩⟩]

theorem retried_failed (m : Messages.StageMessage F) (k : ℕ) :
    (failed m k).retried = failed m (k + 1) :=
  (Function.iterate_succ_apply' _ k m).symm

theorem failed_stage (m : Messages.StageMessage F) (k : ℕ) : (failed m k).stage = m.stage := by
  induction k with
  | zero => rfl
  | succ k ih => rwa [← retried_failed]

theorem failed_attempt (m : Messages.StageMessage F) (k : ℕ) :
    (failed m k).attempt.val = m.attempt.val + k := by
  induction k with
  | zero => exact (Int.add_zero _).symm
  | succ k ih =>
    rw [← retried_failed]
    change (failed m k).attempt.val + 1 = _
    rw [ih]
    push_cast
    omega

def waits (delays : List ℕ) (m : Messages.StageMessage F) (k : ℕ) : List ℕ :=
  (List.range k).map fun i => delayAt delays (m.attempt.val.toNat + i)

theorem waits_succ (delays : List ℕ) (m : Messages.StageMessage F) (k : ℕ) :
    waits delays m (k + 1) = waits delays m k ++ [delayAt delays (m.attempt.val.toNat + k)] := by
  rw [waits, List.range_succ, List.map_append]
  rfl

inductive Stands (delays : List ℕ) (stage : Stage) (m : Messages.StageMessage F) (s : State F) : Prop
  | working (k : ℕ) (headers : List (String × Json F))
    (hstored : s.stored = [⟨stage.queue, stage.routingKey, ⟨failed m k, headers⟩⟩])
    (hwaited : s.waited = waits delays m k) (hinvocations : s.invocations = k)
    (hleft : k = 0 ∨ m.attempt.val + k ≤ stage.maxAttempts)
  | waiting (k : ℕ) (headers : List (String × Json F))
    (hstored : s.stored = [⟨retryExchangeName (delayAt delays (m.attempt.val.toNat + k)),
      stage.routingKey, ⟨failed m (k + 1), headers⟩⟩])
    (hwaited : s.waited = waits delays m k) (hinvocations : s.invocations = k + 1)
    (hleft : m.attempt.val + k < stage.maxAttempts)
  | dead (k : ℕ) (headers : List (String × Json F))
    (hstored : s.stored = [⟨stage.dlq, stage.routingKey, ⟨failed m k, headers⟩⟩])
    (hwaited : s.waited = waits delays m k) (hinvocations : s.invocations = k + 1)
    (hleft : k = 0 ∨ m.attempt.val + k ≤ stage.maxAttempts)

namespace Stands
variable {s : State F}

theorem waited (hs : Stands delays stage m s) :
    ∃ k, s.waited = waits delays m k ∧ k ≤ s.invocations := by
  cases hs with
  | working k headers hstored hwaited hinvocations hleft =>
    exact ⟨k, hwaited, hinvocations.ge⟩
  | waiting k headers hstored hwaited hinvocations hleft =>
    exact ⟨k, hwaited, hinvocations ▸ Nat.le_succ k⟩
  | dead k headers hstored hwaited hinvocations hleft =>
    exact ⟨k, hwaited, hinvocations ▸ Nat.le_succ k⟩

theorem bounded (hs : Stands delays stage m s) : s.invocations ≤ invocationsLeft stage m := by
  unfold invocationsLeft
  cases hs with
  | working k headers hstored hwaited hinvocations hleft => omega
  | waiting k headers hstored hwaited hinvocations hleft => omega
  | dead k headers hstored hwaited hinvocations hleft => omega

end Stands

theorem eq_of_getElem?_singleton {α : Type} {a b : α} {i : ℕ} (h : [a][i]? = some b) :
    i = 0 ∧ a = b := by
  cases i with
  | zero => exact ⟨rfl, Option.some.inj h⟩
  | succ i => cases h

theorem exec_cases {s t : State F} {e : Event} {copy : Stored (Delivery F)}
    (hstored : s.stored = [copy]) (h : exec pipeline delays reprOf broker s e = some t) :
    (∃ exc hattempt copies, copy.queue ∈ pipeline.map (·.queue) ∧
      handleFailure pipeline delays reprOf broker copy.body.message hattempt exc = some copies ∧
      t = { s with stored := copies, invocations := s.invocations + 1 }) ∨
    ∃ ttl, (broker.argumentsOf copy.queue).messageTtl = some ttl ∧
      t = { s with stored := broker.deadLetter copy, waited := s.waited ++ [ttl] } := by
  cases e with
  | fail i exc =>
    obtain ⟨m, hm, h⟩ := Option.bind_eq_some_iff.mp h
    rw [hstored] at hm
    obtain ⟨rfl, rfl⟩ := eq_of_getElem?_singleton hm
    by_cases hqueue : copy.queue ∈ pipeline.map (·.queue) ∧ 1 ≤ copy.body.message.attempt.val
    · rw [dif_pos hqueue] at h
      obtain ⟨copies, hcopies, rfl⟩ := Option.map_eq_some_iff.mp h
      rw [hstored]
      exact .inl ⟨exc, hqueue.2, copies, hqueue.1, hcopies, rfl⟩
    · rw [dif_neg hqueue] at h
      cases h
  | expire i =>
    obtain ⟨m, hm, h⟩ := Option.bind_eq_some_iff.mp h
    rw [hstored] at hm
    obtain ⟨rfl, rfl⟩ := eq_of_getElem?_singleton hm
    obtain ⟨ttl, httl, rfl⟩ := Option.map_eq_some_iff.mp h
    rw [hstored]
    exact .inr ⟨ttl, httl, rfl⟩

theorem not_consumed {name : String} (hname : ∀ other ∈ pipeline, other.queue ≠ name) :
    name ∉ pipeline.map (·.queue) := by
  intro hqueue
  obtain ⟨other, hother, heq⟩ := List.mem_map.mp hqueue
  exact hname other hother heq

theorem dot_notMem (hpipeline : WellNamed pipeline) (hmem : stage ∈ pipeline) :
    '.' ∉ stage.name.toList :=
  (hpipeline.plain stage hmem).1

theorem toNat_failed (h : 1 ≤ m.attempt.val) (k : ℕ) :
    (failed m k).attempt.val.toNat = m.attempt.val.toNat + k := by
  rw [failed_attempt]
  omega

section
variable (hdeclared : Declared (buildTopology pipeline delays) broker)
  (hpipeline : WellNamed pipeline) (hdelays : Backoff delays) (hmem : stage ∈ pipeline)
  (hname : m.stage = stage.name) (h : 1 ≤ m.attempt.val)

include hdeclared hpipeline hdelays hmem hname h

variable (reprOf) in
theorem handleFailure_failed (k : ℕ) (hattempt : 1 ≤ (failed m k).attempt.val) (exc : Exc) :
    ∃ headers,
      (m.attempt.val + k < stage.maxAttempts ∧
        handleFailure pipeline delays reprOf broker (failed m k) hattempt exc =
          some [⟨retryExchangeName (delayAt delays (m.attempt.val.toNat + k)), stage.routingKey,
            ⟨failed m (k + 1), headers⟩⟩]) ∨
      handleFailure pipeline delays reprOf broker (failed m k) hattempt exc =
        some [⟨stage.dlq, stage.routingKey, ⟨failed m k, headers⟩⟩] := by
  have hname' : (failed m k).stage = stage.name := (failed_stage m k).trans hname
  by_cases hleft : exc.permanent = false ∧ (failed m k).attempt.val < stage.maxAttempts
  · obtain ⟨headers, hretry⟩ := handleFailure_of_left reprOf hdeclared hpipeline hmem
      hname' hattempt hdelays.nonempty hleft.1 hleft.2
    rw [toNat_failed h, retried_failed] at hretry
    rw [failed_attempt] at hleft
    exact ⟨headers, .inl ⟨hleft.2, hretry⟩⟩
  · have hexhausted : exc.permanent = true ∨ stage.maxAttempts ≤ (failed m k).attempt.val := by
      by_cases hexc : exc.permanent = true
      · exact .inl hexc
      · exact .inr (not_lt.mp fun hlt => hleft ⟨Bool.eq_false_iff.mpr hexc, hlt⟩)
    obtain ⟨headers, hdead⟩ := handleFailure_of_exhausted reprOf hdeclared hpipeline hmem
      hname' hattempt hexhausted
    exact ⟨headers, .inr hdead⟩

theorem Stands.step {s t : State F} {e : Event} (hs : Stands delays stage m s)
    (hexec : exec pipeline delays reprOf broker s e = some t) : Stands delays stage m t := by
  cases hs with
  | working k headers hstored hwaited hinvocations hleft =>
    obtain ⟨exc, hattempt, copies, -, hcopies, rfl⟩ | ⟨ttl, httl, -⟩ := exec_cases hstored hexec
    · obtain ⟨headers', ⟨hleft', hretry⟩ | hdead⟩ := handleFailure_failed reprOf
        hdeclared hpipeline hdelays hmem hname h k hattempt exc
      · obtain rfl := Option.some.inj (hcopies.symm.trans hretry)
        exact .waiting k headers' rfl hwaited (congrArg (· + 1) hinvocations) hleft'
      · obtain rfl := Option.some.inj (hcopies.symm.trans hdead)
        exact .dead k headers' rfl hwaited (congrArg (· + 1) hinvocations) hleft
    · rw [hdeclared.argumentsOf_work hmem] at httl
      cases httl
  | waiting k headers hstored hwaited hinvocations hleft =>
    have hdelay := delayAt_mem hdelays.nonempty (m.attempt.val.toNat + k)
    obtain ⟨exc, hattempt, copies, hqueue, -, -⟩ | ⟨ttl, httl, rfl⟩ := exec_cases hstored hexec
    · exact absurd hqueue (not_consumed fun other hother =>
        queue_ne_retry (dot_notMem hpipeline hother))
    · rw [hdeclared.argumentsOf_retry hdelay] at httl
      obtain rfl := Option.some.inj httl
      apply Stands.working (k + 1) headers
      · exact hdeclared.deadLetter_retry hpipeline hmem hdelay _
      · rw [waits_succ, hwaited]
      · exact hinvocations
      · apply Or.inr
        push_cast
        omega
  | dead k headers hstored hwaited hinvocations hleft =>
    obtain ⟨exc, hattempt, copies, hqueue, -, -⟩ | ⟨ttl, httl, -⟩ := exec_cases hstored hexec
    · exact absurd hqueue (not_consumed fun other hother =>
        queue_ne_dlq (dot_notMem hpipeline hother))
    · rw [hdeclared.argumentsOf_dlq hmem] at httl
      cases httl

variable (reprOf) in
theorem Stands.progress {s : State F} (hs : Stands delays stage m s) :
    InDeadLetterQueue stage s ∨
      (∃ t, exec pipeline delays reprOf broker s (.expire 0) = some t) ∨
      ∀ exc, ∃ t, exec pipeline delays reprOf broker s (.fail 0 exc) = some t := by
  cases hs with
  | working k headers hstored hwaited hinvocations hleft =>
    right
    right
    intro exc
    have hqueue : stage.queue ∈ pipeline.map (·.queue) := List.mem_map_of_mem hmem
    have hattempt : 1 ≤ (failed m k).attempt.val := by
      rw [failed_attempt]
      omega
    obtain ⟨headers', hcopies⟩ := handleFailure_failed reprOf hdeclared hpipeline hdelays hmem hname h
      k hattempt exc
    simp only [exec, hstored, List.getElem?_cons_zero, Option.bind_some]
    rw [dif_pos ⟨hqueue, hattempt⟩]
    obtain ⟨-, hcopies⟩ | hcopies := hcopies
    · rw [hcopies]
      exact ⟨_, rfl⟩
    · rw [hcopies]
      exact ⟨_, rfl⟩
  | waiting k headers hstored hwaited hinvocations hleft =>
    right
    left
    have hdelay := delayAt_mem hdelays.nonempty (m.attempt.val.toNat + k)
    simp only [exec, hstored, List.getElem?_cons_zero, Option.bind_some,
      hdeclared.argumentsOf_retry hdelay]
    exact ⟨_, rfl⟩
  | dead k headers hstored hwaited hinvocations hleft => exact .inl ⟨_, hstored, rfl⟩

theorem returns {exc : Exc} (hexc : exc.permanent = false)
    (hleft : m.attempt.val < stage.maxAttempts) :
    Returns pipeline delays reprOf broker stage m h exc := by
  have hdelay := delayAt_mem hdelays.nonempty m.attempt.val.toNat
  obtain ⟨headers, hretry⟩ := handleFailure_of_left reprOf hdeclared hpipeline hmem hname h
    hdelays.nonempty hexc hleft
  have hattempts : ¬ stage.maxAttempts ≤ m.attempt.val.toNat := by omega
  exact ⟨_, hdelay, headers, if_neg hattempts, hretry,
    hdeclared.deadLetter_retry hpipeline hmem hdelay _⟩

end

end

theorem retry_delays_backoff : Backoff RETRY_DELAYS_MS where
  nonempty := by decide
  increasing := by decide
  positive := by decide

def parseStage : Stage where
  name := "parse"
  families := paged
  dependsOn := ["detect", "convert"]
  prefetch := 2

end Ragent.Retries
