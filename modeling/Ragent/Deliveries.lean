import Ragent.DocumentTables
import Ragent.Retries

set_option autoImplicit false

/-!
# One delivery

`_on_message`, `_publish`, `_handle_failure` and `_dead_letter` of `ragent/workers/run.py` with
every way out, over the stage table and the broker. What was done before an exception stays done,
and an exception that leaves `_on_message` has `raw.process` reject the message.
-/
namespace Ragent.Deliveries
open Amqp BrokerTopology DocumentTables Formats Messages PyJson Runner Stages StageStores

/-- `ingest_stages`, `ingest_runs.document_id` and `documents.status`. -/
structure Tables where
  rows : String → StageRows
  documentOf : String → Option String
  documents : String → Option DocStatus
  /-- `ingest_stages.run_id REFERENCES ingest_runs` -/
  rows_empty : ∀ run, documentOf run = none → rows run = ∅
  /-- `ingest_runs.document_id REFERENCES documents` -/
  documents_isSome : ∀ run d, documentOf run = some d → (documents d).isSome

namespace Tables

def execute (t : Tables) (run : String) (f : StageRows → StageRows) : Option Tables :=
  if h : t.documentOf run = none then none
  else some
    { t with
      rows := Function.update t.rows run (f (t.rows run))
      rows_empty := by
        intro other hother
        have hne : other ≠ run := fun heq => h (heq ▸ hother)
        rw [Function.update_of_ne hne]
        exact t.rows_empty other hother }

/-- `UPDATE documents SET status = $2 WHERE id = $1` -/
def setDocumentStatus (t : Tables) (d : String) (status : DocStatus) : Tables :=
  { t with
    documents := Function.update t.documents d ((t.documents d).map fun _ => status)
    documents_isSome := by
      intro run other hother
      have hsome := t.documents_isSome run other hother
      by_cases h : other = d
      · subst h
        rw [Function.update_self, Option.isSome_map]
        exact hsome
      · rw [Function.update_of_ne h]
        exact hsome }

/-- An upsert and, for a permanent failure, an update of the document. -/
def failStage (t : Tables) (run stage error : String) (permanent : Bool) : Option Tables :=
  (t.execute run (·.failStage stage error permanent)).map fun t =>
    if permanent then (t.documentOf run).elim t fun d => t.setDocumentStatus d .failed else t

end Tables

inductive Ending (F : Type)
  | raises (exc : Exc)
  /-- A `CancelledError`, which is no `Exception`. -/
  | interrupted
  | returns (metrics : Option (Dict F))

structure Outcome (F : Type) where
  statuses : List (String × DocStatus) := []
  ending : Ending F

/-- `_HANDLERS`. The decorator refuses a name that is not in the pipeline. -/
structure Registry (F : Type) (pipeline : List Stage) where
  getHandler : String → Option (Messages.StageMessage F → Outcome F)
  known : ∀ name, (getHandler name).isSome → name ∈ pipeline.map (·.name)

inductive Settlement
  | acked
  | rejected
  deriving DecidableEq

/-- The body of a message at rest: what the consumer sent, or the one that was delivered to it. -/
inductive Parcel (F : Type)
  | sent (delivery : Retries.Delivery F)
  | original (raw : Bytes)

structure Progress (F : Type) where
  tables : Tables
  sent : List (Stored (Parcel F)) := []
  settled : Option Settlement := none

/-- No exception is told apart from another. -/
abbrev Delivering (F : Type) := EStateM Unit (Progress F)

section
variable {F : Type}

def settle (settlement : Settlement) : Delivering F Unit :=
  fun p => .ok () { p with settled := some settlement }

def call (f : Tables → Option Tables) : Delivering F Unit := fun p =>
  match f p.tables with
  | some t => .ok () { p with tables := t }
  | none => .error () p

def write (statuses : List (String × DocStatus)) : Delivering F Unit := fun p =>
  .ok () { p with tables := statuses.foldl (fun t s => t.setDocumentStatus s.1 s.2) p.tables }

section
variable (pipeline : List Stage) (delays : List ℕ) (reprOf : Exc → String) (broker : Broker)

/-- `STAGES_BY_NAME[message.stage]` raises for a stage that is not in the pipeline. -/
def publish (exchange : String) (m : Messages.StageMessage F) (headers : List (String × Json F)) :
    Delivering F Unit := fun p =>
  match Retries.publish pipeline broker exchange m headers with
  | some copies => .ok () { p with
      sent := p.sent ++ copies.map fun copy => ⟨copy.queue, copy.key, .sent copy.body⟩ }
  | none => .error () p

def deadLetter (m : Messages.StageMessage F) (reason : String) : Delivering F Unit :=
  publish pipeline broker DLX_EXCHANGE m [("x-death-reason", .str (Retries.clipped reason))]

def handleFailure (m : Messages.StageMessage F) (h : 1 ≤ m.attempt.val) (exc : Exc) :
    Delivering F Unit := do
  match planFailure pipeline delays (m.envelope h) exc with
  | .retry _ exchange attempt =>
    call (·.failStage m.runId m.stage exc.describe false)
    publish pipeline broker exchange m.retried
      [("x-retry-attempt", .int attempt), ("x-retry-reason", .str (Retries.clipped (reprOf exc)))]
  | .deadLetter reason =>
    call (·.failStage m.runId m.stage reason true)
    deadLetter pipeline broker m reason
  settle .acked

def nextMessages (m : Messages.StageMessage F) (snapshot : StageSnapshot) :
    List (Messages.StageMessage F) :=
  (readyStages pipeline m.family snapshot.completed snapshot.dispatched).map
    fun stage => m.forStage stage.name

/-- Followers are reserved before they are published. -/
def handOff (m : Messages.StageMessage F) (followers : List (Messages.StageMessage F)) :
    Delivering F Unit :=
  if followers = [] then pure ()
  else do
    call (·.execute m.runId (·.markDispatched (followers.map (·.stage))))
    forM followers fun follower => publish pipeline broker INGEST_EXCHANGE follower []

def complete (m : Messages.StageMessage F) : Delivering F Unit := do
  call (·.execute m.runId (·.completeStage m.stage))
  let p ← get
  handOff pipeline broker m (nextMessages pipeline m (p.tables.rows m.runId).snapshot)
  settle .acked

variable (py : Platform F) (unicodeError : Bytes → String) (hex : String)
  (registry : Registry F pipeline)

/-- A message that was read is at its first attempt or a later one. -/
def decode (raw : Bytes) : Except PyError { m : Messages.StageMessage F // 1 ≤ m.attempt.val } :=
  match h : fromBytes py unicodeError hex raw with
  | .ok m => .ok ⟨m, attempt_of_fromBytes h⟩
  | .error e => .error e

/-- The message with the family among the metrics, unless that is none. -/
def adopt (m : Messages.StageMessage F) (metrics : Option (Dict F)) :
    Option (Messages.StageMessage F) :=
  match metrics.bind (·.get "family") with
  | some v => if v.truthy py.isZero then (familyOf v).map m.withFamily else some m
  | none => some m

def conclude (m : Messages.StageMessage F) (h : 1 ≤ m.attempt.val) : Ending F → Delivering F Unit
  | .raises exc => handleFailure pipeline delays reprOf broker m h exc
  | .interrupted => throw ()
  | .returns metrics => match adopt py m metrics with
    | some m => complete pipeline broker m
    | none => throw ()

def unregistered (name : String) : String := "no handler registered for stage " ++ py.repr (.str name)

def onMessage (raw : Bytes) : Delivering F Unit :=
  match decode py unicodeError hex raw with
  | .error (.malformedMessageError _) => settle .rejected
  | .error (.uncaught _) => throw ()
  | .ok ⟨m, h⟩ => match registry.getHandler m.stage with
    | none => do
      deadLetter pipeline broker m (unregistered py m.stage)
      settle .acked
    | some handler => do
      call (·.execute m.runId (·.beginStage m.stage m.attempt.val.toNat))
      write (handler m).statuses
      conclude pipeline delays reprOf broker py m h (handler m).ending

/-- `raw.process(requeue=False, ignore_processed=True)` -/
def process (body : Delivering F Unit) (p : Progress F) : Progress F :=
  match body p with
  | .ok _ p => { p with settled := some (p.settled.getD .acked) }
  | .error _ p => { p with settled := some (p.settled.getD .rejected) }

structure Delivered (F : Type) where
  tables : Tables
  copies : List (Stored (Parcel F))

def Progress.delivered (stage : Stage) (raw : Bytes) (p : Progress F) : Delivered F where
  tables := p.tables
  copies := p.sent ++
    if p.settled = some .rejected then
      broker.deadLetter ⟨stage.queue, stage.routingKey, .original raw⟩
    else []

def deliver (stage : Stage) (raw : Bytes) (tables : Tables) : Delivered F :=
  (process (onMessage pipeline delays reprOf broker py unicodeError hex registry raw)
    { tables := tables }).delivered broker stage raw

def Failed (t : Tables) (m : Messages.StageMessage F) : Prop :=
  (∃ row error, (t.rows m.runId).lookup m.stage = some row ∧ row.status = .failed ∧
    row.error = some error ∧ error ≠ "") ∧
  ∃ d status, t.documentOf m.runId = some d ∧ t.documents d = some status ∧
    (status = .failed ∨ status = .quarantined)

inductive Reason (m : Messages.StageMessage F) : String → Prop
  | unregistered (hnone : registry.getHandler m.stage = none) : Reason m (unregistered py m.stage)
  | raised {handler : Messages.StageMessage F → Outcome F}
    (hsome : registry.getHandler m.stage = some handler) {exc : Exc}
    (hraises : (handler m).ending = .raises exc) {text : String}
    (hends : exc.describe.toList <:+ text.toList) : Reason m text

def CarriesReason (m : Messages.StageMessage F) (copy : Stored (Parcel F)) : Prop :=
  ∃ delivery text, copy.body = .sent delivery ∧ Reason pipeline py registry m text ∧
    ("x-death-reason", .str (Retries.clipped text)) ∈ delivery.headers

def DeadLettered (after : Delivered F) : Prop :=
  ∃ copy ∈ after.copies, copy.queue ∈ pipeline.map (·.dlq)

/-- The dead-letter queues and the stage table agree on a delivery. -/
structure Agree (raw : Bytes) (before : Tables) (after : Delivered F) : Prop where
  dead_iff : ∀ m, fromBytes py unicodeError hex raw = .ok m →
    (DeadLettered pipeline after ↔ Failed after.tables m)
  reason : ∀ m, fromBytes py unicodeError hex raw = .ok m → ∀ copy ∈ after.copies,
    copy.queue ∈ pipeline.map (·.dlq) → CarriesReason pipeline py registry m copy
  undecodable : ∀ e, fromBytes py unicodeError hex raw = .error e →
    DeadLettered pipeline after ∧ after.tables = before

/-- A handler raises, or returns no family or one that there is. -/
def Settles (m : Messages.StageMessage F) (ending : Ending F) : Prop :=
  ending ≠ .interrupted ∧ ∀ metrics, ending = .returns metrics → adopt py m metrics ≠ none

/-- A message that nobody handles is for a stage of the pipeline, and has failed before. -/
def Accounted (raw : Bytes) (before : Tables) : Prop :=
  ∀ m, fromBytes py unicodeError hex raw = .ok m →
    (∀ handler, registry.getHandler m.stage = some handler → Settles py m (handler m).ending) ∧
    (registry.getHandler m.stage = none → m.stage ∈ pipeline.map (·.name) ∧ Failed before m)

/-- A message with a handler is for a run that exists, so that no call of the store fails. -/
def StoreAccepts (raw : Bytes) (before : Tables) : Prop :=
  ∀ m, fromBytes py unicodeError hex raw = .ok m → (registry.getHandler m.stage).isSome →
    (before.documentOf m.runId).isSome

end

namespace Tables
variable {t : Tables} {run d : String}

theorem execute_of_known (hrun : t.documentOf run = some d) (f : StageRows → StageRows) :
    ∃ t', t.execute run f = some t' ∧ t'.rows run = f (t.rows run) ∧
      t'.documentOf = t.documentOf ∧ t'.documents = t.documents := by
  have hknown : t.documentOf run ≠ none := by simp [hrun]
  unfold execute
  rw [dif_neg hknown]
  exact ⟨_, rfl, Function.update_self _ _ _, rfl, rfl⟩

theorem failStage_of_known (hrun : t.documentOf run = some d) (stage error : String)
    (permanent : Bool) :
    ∃ t', t.failStage run stage error permanent = some t' ∧
      t'.rows run = (t.rows run).failStage stage error permanent ∧
      t'.documentOf = t.documentOf ∧ (permanent = true → t'.documents d = some .failed) := by
  obtain ⟨t', hexecute, hrows, hdocumentOf, hdocuments⟩ :=
    execute_of_known hrun (·.failStage stage error permanent)
  have hrun' : t'.documentOf run = some d := by rw [hdocumentOf, hrun]
  simp only [failStage, hexecute, Option.map_some, hrun', Option.elim_some]
  cases permanent with
  | false => exact ⟨t', rfl, hrows, hdocumentOf, nofun⟩
  | true =>
    refine ⟨t'.setDocumentStatus d .failed, rfl, hrows, hdocumentOf, fun _ => ?_⟩
    obtain ⟨status, hstatus⟩ := Option.isSome_iff_exists.mp (t'.documents_isSome run d hrun')
    simp only [setDocumentStatus, Function.update_self, hstatus, Option.map_some]

theorem setDocumentStatuses (statuses : List (String × DocStatus)) (t : Tables) :
    (statuses.foldl (fun t s => t.setDocumentStatus s.1 s.2) t).rows = t.rows ∧
      (statuses.foldl (fun t s => t.setDocumentStatus s.1 s.2) t).documentOf = t.documentOf := by
  induction statuses generalizing t with
  | nil => exact ⟨rfl, rfl⟩
  | cons s statuses ih => exact ih (t.setDocumentStatus s.1 s.2)

end Tables

section
variable {α β : Type} {x : Delivering F α} {f : α → Delivering F β} {p p' : Progress F}

theorem bind_of_ok {a : α} (h : x.run p = .ok a p') : (x >>= f).run p = (f a).run p' := by
  change EStateM.bind x f p = f a p'
  unfold EStateM.bind
  rw [show x p = .ok a p' from h]

theorem bind_of_error (h : x.run p = .error () p') : (x >>= f).run p = .error () p' := by
  change EStateM.bind x f p = _
  unfold EStateM.bind
  rw [show x p = .error () p' from h]

theorem run_get : (get : Delivering F (Progress F)).run p = .ok p p := rfl

theorem call_of_some {g : Tables → Option Tables} {t : Tables} (h : g p.tables = some t) :
    (call g).run p = .ok () { p with tables := t } := by
  simp only [EStateM.run, call, h]

end

end

end Ragent.Deliveries
